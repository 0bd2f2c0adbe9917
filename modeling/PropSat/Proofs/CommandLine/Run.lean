import PropSat.CommandLine.Terminal
import PropSat.Proofs.CommandLine.Options
import PropSat.Proofs.Dimacs.Grammar
import PropSat.Proofs.SolutionText

/-!
# Runs on a terminal

A run reads, solves and writes, one contact with the terminal after the other. Reading changes
neither the files nor what is printed, and the text is written once, after it is complete. So a text
that is refused leaves no trace but the exit code and a complaint.
-/

namespace PropSat.CommandLine

namespace Terminal

/-- The text is the whole input of a run: it stands in the named file, or on standard input if no
file is named. -/
def Supplies (t : Terminal) (given : List Setting) (text : String) : Prop :=
  ((∀ s ∈ given, s.key ≠ .input) ∧ t.input = text.toUTF8) ∨
    ∃ path u, ⟨.input, some path⟩ ∈ given ∧ t.readFile path = (.ok text.toUTF8, u)

/-- The text is printed if no file is named. Otherwise it is the whole content of the named file,
nothing is printed and no other file is touched; a device gets it instead of a file. -/
structure Delivers (t : Terminal) (given : List Setting) (solution : String) (u : Terminal) :
    Prop where
  printed : (∀ s ∈ given, s.key ≠ .output) →
    u.printed = t.printed ++ solution ∧ u.fileSystem = t.fileSystem
  written : ∀ path l, ⟨.output, some path⟩ ∈ given → t.fileSystem.place path = .ok l →
    (∀ d, t.fileSystem.node? l ≠ some (.device d)) →
      u.printed = t.printed ∧ u.fileSystem = t.fileSystem.insert l (.file solution.toUTF8)
  handed : ∀ path l d, ⟨.output, some path⟩ ∈ given → t.fileSystem.place path = .ok l →
    t.fileSystem.node? l = some (.device d) →
      u.printed = (if d = .output then t.printed ++ solution else t.printed) ∧
        u.fileSystem = t.fileSystem

/-- Nothing has been printed and no file has changed. -/
structure Untouched (t u : Terminal) : Prop where
  printed : u.printed = t.printed
  fileSystem : u.fileSystem = t.fileSystem

theorem untouched_of_readFile {t u : Terminal} {path : String} {r : Except FileFault ByteArray}
    (h : t.readFile path = (r, u)) : t.Untouched u := by
  unfold readFile at h
  split at h <;> cases h <;> exact ⟨rfl, rfl⟩

section

variable {t : Terminal} {l : Location} (text : String)

theorem writeAt_device {d : Device} (hd : d ≠ .full)
    (h : t.fileSystem.node? l = some (.device d)) :
    ∃ u, t.writeAt l text = (.ok (), u) ∧
      u.printed = (if d = .output then t.printed ++ text else t.printed) ∧
        u.fileSystem = t.fileSystem := by
  unfold writeAt
  rw [h]
  cases d with
  | full => contradiction
  | null | input | output | complaints => exact ⟨_, rfl, rfl, rfl⟩

theorem writeAt_file (h : ∀ d, t.fileSystem.node? l ≠ some (.device d)) :
    t.writeAt l text =
      (.ok (), { t with fileSystem := t.fileSystem.insert l (.file text.toUTF8) }) := by
  unfold writeAt
  split
  · next hfull => exact absurd hfull (h _)
  · next houtput => exact absurd houtput (h _)
  · next hcomplaints => exact absurd hcomplaints (h _)
  · next hdevice => exact absurd hdevice (h _)
  · rfl

theorem exists_writeAt (hfull : t.fileSystem.node? l ≠ some (.device .full)) :
    ∃ u, t.writeAt l text = (.ok (), u) ∧
      ((∀ d, t.fileSystem.node? l ≠ some (.device d)) →
        u.printed = t.printed ∧ u.fileSystem = t.fileSystem.insert l (.file text.toUTF8)) ∧
      ∀ d, t.fileSystem.node? l = some (.device d) →
        u.printed = (if d = .output then t.printed ++ text else t.printed) ∧
          u.fileSystem = t.fileSystem := by
  by_cases hdevice : ∃ d, t.fileSystem.node? l = some (.device d)
  · obtain ⟨d, hd⟩ := hdevice
    obtain ⟨u, hu, hhanded⟩ := writeAt_device text (fun heq => hfull (heq ▸ hd)) hd
    refine ⟨u, hu, fun hfree => absurd hd (hfree d), fun e he => ?_⟩
    cases hd.symm.trans he
    exact hhanded
  · have hfree := not_exists.mp hdevice
    exact ⟨_, writeAt_file text hfree, fun _ => ⟨rfl, rfl⟩, fun d hd => absurd hd (hfree d)⟩

variable {text}

theorem exists_place_of_writeFile {path : String} (h : (t.writeFile path text).1 = .ok ()) :
    ∃ l, t.fileSystem.place path = .ok l ∧ t.fileSystem.node? l ≠ some (.device .full) := by
  unfold writeFile at h
  split at h
  · contradiction
  · next l hplace =>
      refine ⟨l, hplace, fun hfull => ?_⟩
      rw [writeAt, hfull] at h
      contradiction

end

section

variable {t u : Terminal} {given : List Setting} {solution : String} (htu : t.Untouched u)
include htu

theorem Untouched.delivers_print (h : ∀ path, ⟨.output, some path⟩ ∉ given) :
    t.Delivers given solution (u.print solution) := by
  refine ⟨fun _ => ⟨congrArg (· ++ solution) htu.printed, htu.fileSystem⟩, ?_, ?_⟩
  · exact fun path _ hpath => absurd hpath (h path)
  · exact fun path _ _ hpath => absurd hpath (h path)

theorem Untouched.delivers_writeFile {path : String}
    (hpath : ∀ p, ⟨.output, some p⟩ ∈ given ↔ p = path)
    (hwrites : (t.writeFile path solution).1 = .ok ()) :
    ∃ v, u.writeFile path solution = (.ok (), v) ∧ t.Delivers given solution v := by
  obtain ⟨l, hplace, hfull⟩ := exists_place_of_writeFile hwrites
  have hnamed : ∀ p k, ⟨.output, some p⟩ ∈ given → t.fileSystem.place p = .ok k → k = l := by
    intro p k hp hk
    rw [(hpath p).mp hp, hplace] at hk
    exact (Except.ok.inj hk).symm
  have hno : ¬ ∀ s ∈ given, s.key ≠ .output := fun h => h _ ((hpath path).mpr rfl) rfl
  rw [← htu.fileSystem] at hfull
  obtain ⟨v, hv, hfile, hdevice⟩ := exists_writeAt solution hfull
  rw [htu.printed, htu.fileSystem] at hfile hdevice
  refine ⟨v, ?_, fun h => absurd h hno, fun p k hp hk => ?_, fun p k d hp hk => ?_⟩
  · rw [writeFile, htu.fileSystem, hplace]
    exact hv
  · cases hnamed p k hp hk
    exact hfile
  · cases hnamed p k hp hk
    exact hdevice d

end

end Terminal

theorem decodeText_toUTF8 (source text : String) : decodeText source text.toUTF8 = .ok text := by
  have hvalid : String.fromUTF8? text.toUTF8 = some text := dif_pos text.isValidUTF8
  rw [decodeText, hvalid]

theorem bind_of_eq {σ α β : Type} {x : StateM σ α} {k : α → StateM σ β} {s s' : σ} {a : α}
    (h : x s = (a, s')) : (x >>= k) s = k a s' := by
  change (match x s with | (b, r) => k b r) = k a s'
  rw [h]

section

variable {t u v : Terminal} {given : List Setting} {o : Options} {text : String}

theorem readText_of_supplies (ho : o.Reflects given) (h : t.Supplies given text) :
    ∃ u, readText Terminal.console o.input? t = (.ok text, u) ∧ t.Untouched u := by
  rcases h with ⟨hno, hinput⟩ | ⟨path, u, hpath, hread⟩
  · have hnone : o.input? = none :=
      Option.eq_none_iff_forall_ne_some.mpr fun path hpath => hno _ ((ho.input path).mp hpath) rfl
    rw [hnone]
    refine ⟨((t.complain standardInputNote).readInput).2, ?_, ⟨rfl, rfl⟩⟩
    change (decodeText "standard input" t.input, _) = _
    rw [hinput, decodeText_toUTF8]
    rfl
  · rw [(ho.input path).mpr hpath]
    refine ⟨u, ?_, Terminal.untouched_of_readFile hread⟩
    refine (bind_of_eq (x := Terminal.console.readFile path) hread).trans ?_
    exact congrArg (·, u) (decodeText_toUTF8 path text)

theorem writeSolution_delivers (ho : o.Reflects given) (htu : t.Untouched u) {solution : String}
    (hwrites : ∀ path, ⟨.output, some path⟩ ∈ given → (t.writeFile path solution).1 = .ok ()) :
    ∃ v, writeSolution Terminal.console solution o.output? u = (.ok (), v) ∧
      t.Delivers given solution v := by
  cases houtput : o.output? with
  | none =>
      refine ⟨u.print solution, rfl, htu.delivers_print fun path hpath => ?_⟩
      rw [(ho.output path).mpr hpath] at houtput
      contradiction
  | some path =>
      have hpath : ∀ p, ⟨.output, some p⟩ ∈ given ↔ p = path := by
        intro p
        rw [← ho.output p, houtput, Option.some.injEq, eq_comm]
      have hwrite := hwrites path ((hpath path).mpr rfl)
      obtain ⟨v, hv, hdelivers⟩ := htu.delivers_writeFile hpath hwrite
      exact ⟨v, bind_of_eq (x := Terminal.console.writeFile path solution) hv, hdelivers⟩

section

variable (hread : readText Terminal.console o.input? t = (.ok text, u))
include hread

theorem solve_of_refused {e : Dimacs.Error} (h : Dimacs.read text = .error e) :
    solve Terminal.console o t = (.error (.badInput e), u) := by
  rw [solve, bind_of_eq hread]
  dsimp only
  rw [h]
  rfl

theorem solve_of_delivered {cs : ClauseSet Nat} (h : Dimacs.read text = .ok cs)
    (hwrite : writeSolution Terminal.console (o.solver.solveNumbered cs).toDimacs o.output? u =
      (.ok (), v)) :
    solve Terminal.console o t =
      (.ok (if o.returnCode && (o.solver.solveNumbered cs).isSat then 1 else 0), v) := by
  rw [solve, bind_of_eq hread]
  dsimp only
  rw [h]
  dsimp only
  rw [bind_of_eq hwrite]
  rfl

end

theorem runWith_of_solve {parse : List String → Except UsageError (List Setting)}
    {arguments : List String} {r : Except Failure Nat} (hgiven : parse arguments = .ok given)
    (hrequest : Request.ofSettings given = .ok (.solve o))
    (hsolve : solve Terminal.console o t = (r, u)) :
    runWith parse Terminal.console arguments t =
      match r with
      | .ok code => (code, u)
      | .error failure => (1, u.complain failure.report) := by
  rw [runWith, hgiven, Except.bind, hrequest]
  refine (bind_of_eq hsolve).trans ?_
  cases r <;> rfl

end

/-- Accepted settings are carried out on every text, whatever parser has found them in the
arguments; `run` is the case of the program's own parser. A text that is refused gives exit code 1
and leaves the terminal untouched. On any other text the text of the chosen solver reports on the
clause set and goes where the settings say, with the status line that every solver would give. The
exit code is then 1 if it was asked for and there is a model, else 0. -/
theorem run_solves_end_to_end {parse : List String → Except UsageError (List Setting)}
    {arguments : List String} {given : List Setting} {text : String} {t : Terminal}
    (hgiven : parse arguments = .ok given) (haccepted : Accepted given)
    (hsupplies : t.Supplies given text)
    (hwrites : ∀ path, ⟨.output, some path⟩ ∈ given →
      ∀ solution, (t.writeFile path solution).1 = .ok ()) :
    ∃ code u, runWith parse Terminal.console arguments t = (code, u) ∧
      (∀ e, Dimacs.read text = .error e → code = 1 ∧ t.Untouched u) ∧
      ∀ cs, Dimacs.read text = .ok cs →
        Reports cs ((chosenSolver given).solveNumbered cs).toDimacs ∧
        t.Delivers given ((chosenSolver given).solveNumbered cs).toDimacs u ∧
        (∀ s : Solver, statusLine (s.solveNumbered cs).toDimacs =
          statusLine ((chosenSolver given).solveNumbered cs).toDimacs) ∧
        (code = 1 ↔ (∃ s ∈ given, s.key = .returnCode) ∧ cs.Satisfiable) ∧
        (code = 0 ↔ ¬ ((∃ s ∈ given, s.key = .returnCode) ∧ cs.Satisfiable)) := by
  obtain ⟨o, hrequest, ho⟩ := haccepted.exists_request
  obtain ⟨u, hread, htu⟩ := readText_of_supplies ho hsupplies
  cases htext : Dimacs.read text with
  | error e =>
      have hrun := runWith_of_solve hgiven hrequest (solve_of_refused hread htext)
      exact ⟨1, _, hrun, fun _ _ => ⟨rfl, htu.printed, htu.fileSystem⟩, nofun⟩
  | ok cs =>
      rw [← ho.solver]
      have hpos := Dimacs.one_le_of_read htext
      obtain ⟨v, hwrite, hdelivers⟩ := writeSolution_delivers ho htu
        fun path hpath => hwrites path hpath (o.solver.solveNumbered cs).toDimacs
      have hrun := runWith_of_solve hgiven hrequest (solve_of_delivered hread htext hwrite)
      have hsat := (o.solver.answers_solveNumbered hpos).isSat_iff
      have hreports := o.solver.reports_solveNumbered hpos
      have hcode : (o.returnCode && (o.solver.solveNumbered cs).isSat) = true ↔
          (∃ s ∈ given, s.key = .returnCode) ∧ cs.Satisfiable := by
        rw [Bool.and_eq_true, ho.returnCode, hsat]
      refine ⟨_, v, hrun, nofun, fun _ hcs => ?_⟩
      cases hcs
      refine ⟨hreports, hdelivers, fun s => ?_, ?_, ?_⟩
      · exact hreports.statusLine_eq (s.reports_solveNumbered hpos)
      · rw [← hcode]
        split <;> simp_all
      · rw [← hcode]
        split <;> simp_all

def Terminal.withInput (text : String) : Terminal where
  input := text.toUTF8
  fileSystem := (⟨∅, []⟩ : FileSystem).insert [] .directory
  printed := ""
  complaints := ""

/-- The tableau writes a model of two clauses to a new file. -/
theorem run_solves_end_to_end_into_file :
    ∃ u, run Terminal.console ["-r", "--algorithm=tableau", "-o", "out"]
        (.withInput "p cnf 2 2\n1 2 0\n-1 0\n") = (1, u) ∧ u.printed = "" ∧
      u.fileSystem.node? ["out"] = some (.file (Solution.toDimacs
        (Solver.tableau.solveNumbered [[⟨1, true⟩, ⟨2, true⟩], [⟨1, false⟩]])).toUTF8) := by
  have hgiven : parseArguments ["-r", "--algorithm=tableau", "-o", "out"] =
      .ok [⟨.returnCode, none⟩, ⟨.algorithm, some "tableau"⟩, ⟨.output, some "out"⟩] := by
    decide +kernel
  have haccepted : Accepted
      [⟨.returnCode, none⟩, ⟨.algorithm, some "tableau"⟩, ⟨.output, some "out"⟩] :=
    ⟨by decide, by decide, by decide, by simp, by simp⟩
  have hsupplies : ∀ text, (Terminal.withInput text).Supplies
      [⟨.returnCode, none⟩, ⟨.algorithm, some "tableau"⟩, ⟨.output, some "out"⟩] text :=
    fun _ => .inl ⟨by decide, rfl⟩
  have hplace : ∀ text, (Terminal.withInput text).fileSystem.place "out" = .ok ["out"] :=
    fun _ => rfl
  have hfree : ∀ text d, (Terminal.withInput text).fileSystem.node? ["out"] ≠ some (.device d) :=
    fun _ _ => nofun
  have hwrites : ∀ text solution,
      ((Terminal.withInput text).writeFile "out" solution).1 = .ok () := by
    intro text solution
    rw [Terminal.writeFile, hplace]
    exact congrArg Prod.fst (Terminal.writeAt_file solution (hfree text))
  have hread : Dimacs.read "p cnf 2 2\n1 2 0\n-1 0\n" =
      .ok [[⟨1, true⟩, ⟨2, true⟩], [⟨1, false⟩]] := by rfl
  have hsat : ClauseSet.Satisfiable [[⟨1, true⟩, ⟨2, true⟩], [(⟨1, false⟩ : Literal Nat)]] :=
    ⟨fun n => n == 2, by simp [ClauseSet.TrueUnder, Clause.TrueUnder, Literal.TrueUnder]⟩
  obtain ⟨code, u, hrun, -, hok⟩ := run_solves_end_to_end hgiven haccepted
    (hsupplies "p cnf 2 2\n1 2 0\n-1 0\n") fun path hpath => by
      obtain rfl : path = "out" := by simpa using hpath
      exact hwrites _
  obtain ⟨-, hdelivers, -, hcode, -⟩ := hok _ hread
  obtain rfl := hcode.mpr ⟨⟨⟨.returnCode, none⟩, by simp, rfl⟩, hsat⟩
  obtain ⟨hprinted, hfiles⟩ := hdelivers.written "out" ["out"] (by simp) (hplace _) (hfree _)
  refine ⟨u, hrun, hprinted, ?_⟩
  rw [hfiles, FileSystem.node?_insert, if_pos rfl]
  rfl

end PropSat.CommandLine
