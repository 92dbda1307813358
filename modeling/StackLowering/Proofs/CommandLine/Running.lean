import StackLowering.CommandLine.Run
import StackLowering.Proofs.Disk.Writing
import StackLowering.Proofs.Program.Loaded
/-! What a run of the command line does to a file system. It reads first, and comes to a job or a
failure of which the file system knows nothing; then it writes the binary form, if that is asked
for, and the output. -/
namespace StackLowering.CommandLine
open Assembly Disk Disk.Volume
variable {σ : Type} {s : σ}

private theorem enact_liftExcept {α β : Type} (r : Except RunError α)
    (f : α → ExceptT RunError (StateM σ) β) :
    enact s (lower.liftExcept r >>= f) = match r with
      | .ok a => enact s (f a)
      | .error e => (.error e, s) := by
  have hr : Keeps (lower.liftExcept r : ExceptT RunError (StateM σ) α).run := keeps_pure r
  rw [hr.enact_bind]
  cases r <;> rfl

variable [Access (StateM σ)]

@[ext] structure Job where
  program : Program
  lines : List Line
  output : Path

def Job.binary (j : Job) : Path := j.output.withExtension binaryExtension

def Job.bytes (j : Job) : List UInt8 := Text.toBytes (fileText (j.lines.map Line.text))

def Job.printed (j : Job) (o : Options) : String :=
  if o.flags.listing then fileText (Listing.headedListing (j.lines.map Line.text)) else ""

namespace Options

def job (o : Options) (s : σ) (program : Program) : Except RunError Job := do
  let bootstrap := o.flags.bootstrap.getD (answer s (defaultBootstrap o.input program))
  let lines ← (program.lower ⟨bootstrap, o.flags.annotate⟩).mapError .rejected
  return ⟨program, lines, o.flags.output.getD (answer s (defaultOutput o.input))⟩

/-- What a run comes to before it writes anything. -/
def prepare (o : Options) (s : σ) : Except RunError Job := do
  let program ← (ask s (load o.input)).mapError .load
  if o.flags.check then checkUnits program.units
  o.job s program

def finish (o : Options) (j : Job) : ExceptT RunError (StateM σ) String := do
  if o.flags.emitBinary then saveBinary o.input j.output j.program
  save j.output j.bytes
  return j.printed o

end Options

/-- A job is the program that is loaded, what it is lowered to, and where that goes. -/
theorem Options.prepare_eq_ok_iff {o : Options} {j : Job} : o.prepare s = .ok j ↔
    ask s (load o.input) = .ok j.program ∧
    (o.flags.check = true → checkUnits j.program.units = .ok ()) ∧
    j.program.lower ⟨o.flags.bootstrap.getD (answer s (defaultBootstrap o.input j.program)),
      o.flags.annotate⟩ = .ok j.lines ∧
    j.output = o.flags.output.getD (answer s (defaultOutput o.input)) := by
  have job : o.job s j.program = .ok j ↔
      j.program.lower ⟨o.flags.bootstrap.getD (answer s (defaultBootstrap o.input j.program)),
        o.flags.annotate⟩ = .ok j.lines ∧
      j.output = o.flags.output.getD (answer s (defaultOutput o.input)) := by
    rw [Options.job]
    cases j.program.lower _ with
    | error e => simp [Except.mapError, bind, Except.bind]
    | ok lines =>
      simp [Except.mapError, bind, Except.bind, pure_eq_ok_iff, Job.ext_iff, eq_comm (a := lines)]
  have loaded {program : Program} (h : o.job s program = .ok j) : program = j.program := by
    obtain ⟨lines, -, h⟩ := bind_eq_ok_iff.1 h
    rw [pure_eq_ok_iff.1 h]
  have checked (program : Program) : (do
      if o.flags.check then checkUnits program.units
      o.job s program) = .ok j ↔
      (o.flags.check = true → checkUnits program.units = .ok ()) ∧ o.job s program = .ok j := by
    cases o.flags.check with
    | false => simp
    | true => cases checkUnits program.units <;> simp [bind, Except.bind]
  rw [Options.prepare, bind_eq_ok_iff]
  simp only [mapError_eq_ok_iff, checked]
  constructor
  · rintro ⟨program, hl, hc, hj⟩
    obtain rfl := loaded hj
    exact ⟨hl, hc, job.1 hj⟩
  · rintro ⟨hl, hc, hj⟩
    exact ⟨_, hl, hc, job.2 hj⟩

/-- What the writing of the binary form leaves, if it succeeds. -/
inductive SavesBinary (o : Options) (j : Job) (s : σ) : σ → Prop where
  | skipped (h : o.flags.emitBinary = true → j.binary.same o.input = true) : SavesBinary o j s s
  | written {t : σ} (he : o.flags.emitBinary = true) (hs : j.binary.same o.input = false)
    (h : enact s (writeAtomic j.binary j.program.toBytes) = (.ok (), t)) : SavesBinary o j s t

inductive Finishes (o : Options) (j : Job) (s : σ) : Except RunError String → σ → Prop where
  | binaryFailed {fault : Disk.Fault} {t : σ} (he : o.flags.emitBinary = true)
    (hs : j.binary.same o.input = false)
    (h : enact s (writeAtomic j.binary j.program.toBytes) = (.error fault, t)) :
    Finishes o j s (.error (.save j.binary fault)) t
  | outputFailed {fault : Disk.Fault} {t u : σ} (hb : SavesBinary o j s t)
    (h : enact t (writeAtomic j.output j.bytes) = (.error fault, u)) :
    Finishes o j s (.error (.save j.output fault)) u
  | finished {t u : σ} (hb : SavesBinary o j s t)
    (h : enact t (writeAtomic j.output j.bytes) = (.ok (), u)) :
    Finishes o j s (.ok (j.printed o)) u

private theorem enact_save (s : σ) (p : Path) (bytes : List UInt8) :
    enact s (save p bytes) =
      ((enact s (writeAtomic p bytes)).1.mapError (.save p),
        (enact s (writeAtomic p bytes)).2) :=
  enact_adapt s _ _

/-- Without a binary form all that a job does is to write the output. -/
theorem enact_finish_of_written {o : Options} {j : Job} (he : o.flags.emitBinary = false)
    (hw : (enact s (writeAtomic j.output j.bytes)).1 = .ok ()) :
    enact s (o.finish j) =
      (.ok (j.printed o), (enact s (writeAtomic j.output j.bytes)).2) := by
  rw [Options.finish, he, if_neg Bool.false_ne_true, enact_bind, enact_save, hw]
  rfl

/-- The output is written where the binary form has left the state. -/
private theorem finishes_output {o : Options} {j : Job} {t : σ} (hb : SavesBinary o j s t) :
    Finishes o j s
      (enact t (do save j.output j.bytes; return j.printed o)).1
      (enact t (do save j.output j.bytes; return j.printed o)).2 := by
  rw [enact_bind, enact_save]
  rcases h : enact t (writeAtomic j.output j.bytes) with ⟨_ | _, u⟩
  · exact .outputFailed hb h
  · exact .finished hb h

theorem finishes_finish (o : Options) (j : Job) (s : σ) :
    Finishes o j s (enact s (o.finish j)).1 (enact s (o.finish j)).2 := by
  rw [Options.finish]
  cases he : o.flags.emitBinary with
  | false => exact finishes_output (.skipped fun h => by rw [he] at h; cases h)
  | true =>
    rw [if_pos rfl, saveBinary, ← Job.binary]
    cases hs : j.binary.same o.input with
    | true => exact finishes_output (.skipped fun _ => hs)
    | false =>
      rw [if_neg Bool.false_ne_true, enact_bind, enact_save]
      rcases h : enact s (writeAtomic j.binary j.program.toBytes) with ⟨_ | _, t⟩
      · exact .binaryFailed he hs h
      · exact finishes_output (.written he hs h)

def runOn (arguments : List String) (s : σ) : Outcome × σ :=
  (run arguments : StateM σ Outcome).run s

theorem SavesBinary.sameDirectories {o : Options} {j : Job} {v w : Volume}
    (h : SavesBinary o j v w) : SameDirectories v w := by
  cases h with
  | skipped => exact .refl v
  | written _ _ h => exact (saves_of_enact h).sameDirectories

/-- Where the binary form would go by the path of the input, nothing is written. -/
theorem SavesBinary.eq_of_same {o : Options} {j : Job} {t : σ} (h : SavesBinary o j s t)
    (hs : j.binary.same o.input = true) : t = s := by
  cases h with
  | skipped => rfl
  | written _ hn _ => exact absurd (hs.symm.trans hn) (by decide)

def Outcome.ofResult : Except RunError String → Outcome
  | .ok out => ⟨0, out, ""⟩
  | .error e => .failure e.message

theorem Outcome.status_ofResult_eq_zero_iff {r : Except RunError String} :
    (ofResult r).status = 0 ↔ ∃ out, r = .ok out := by
  cases r <;> simp [ofResult, failure]

structure Prepares (arguments : List String) (s : σ) (o : Options) (j : Job) : Prop where
  help : asksForHelp arguments = false
  options : Options.ofArguments arguments = .ok o
  tokens : o.flags.tokens = false
  job : o.prepare s = .ok j

variable [LawfulAccess σ]

private theorem keeps_defaultBootstrap (p : Path) (program : Program) :
    Keeps (defaultBootstrap p program : StateM σ Bool) :=
  (LawfulAccess.isDirectory p).bind fun _ => keeps_pure _

private theorem keeps_showTokens (o : Options) : Keeps (showTokens o : StateM σ Outcome) :=
  (keeps_readText o.input).bind fun r => by
    cases r
    · exact keeps_pure _
    · exact keeps_pure _

private def lowerFrom (o : Options) (program : Program) (bootstrap : Bool) :
    ExceptT RunError (StateM σ) String := do
  let lines ← lower.liftExcept <|
    (program.lower ⟨bootstrap, o.flags.annotate⟩).mapError .rejected
  let output ← match o.flags.output with
    | some path => pure path
    | none => (defaultOutput o.input : StateM σ Path)
  o.finish ⟨program, lines, output⟩

private theorem enact_lowerFrom (o : Options) (program : Program) (bootstrap : Bool) :
    enact s (lowerFrom o program bootstrap) =
      match (program.lower ⟨bootstrap, o.flags.annotate⟩).mapError .rejected with
      | .ok lines => enact s (o.finish
          ⟨program, lines, o.flags.output.getD (answer s (defaultOutput o.input))⟩)
      | .error e => (.error e, s) := by
  rw [lowerFrom, enact_liftExcept]
  cases (program.lower ⟨bootstrap, o.flags.annotate⟩).mapError RunError.rejected with
  | error e => rfl
  | ok lines =>
    dsimp only
    cases o.flags.output with
    | some path => rfl
    | none => exact Keeps.enact_lift (keeps_defaultOutput o.input) _

private def lowerProgram (o : Options) (program : Program) :
    ExceptT RunError (StateM σ) String := do
  let bootstrap ← match o.flags.bootstrap with
    | some asked => pure asked
    | none => (defaultBootstrap o.input program : StateM σ Bool)
  lowerFrom o program bootstrap

private theorem enact_lowerProgram (o : Options) (program : Program) :
    enact s (lowerProgram o program) = match o.job s program with
      | .ok job => enact s (o.finish job)
      | .error e => (.error e, s) := by
  have hb : enact s (lowerProgram o program) = enact s (lowerFrom o program
      (o.flags.bootstrap.getD (answer s (defaultBootstrap o.input program)))) := by
    rw [lowerProgram]
    cases o.flags.bootstrap with
    | some asked => rfl
    | none => exact Keeps.enact_lift (keeps_defaultBootstrap o.input program) _
  rw [hb, enact_lowerFrom, Options.job]
  cases (program.lower _).mapError RunError.rejected <;> rfl

/-- A run writes the job that it has prepared, if it has prepared one. -/
theorem enact_lower (o : Options) (s : σ) :
    enact s (lower o) = match o.prepare s with
      | .ok job => enact s (o.finish job)
      | .error e => (.error e, s) := by
  rw [lower, ((keeps_load o.input).adapt _).enact_bind, ask_adapt, Options.prepare]
  cases ask s (load o.input) with
  | error e => rfl
  | ok program =>
    show enact s (if o.flags.check then
        lower.liftExcept (checkUnits program.units) >>= fun _ => lowerProgram o program
        else lowerProgram o program) =
      match (if o.flags.check then checkUnits program.units >>= fun _ => o.job s program
        else o.job s program) with
        | .ok job => enact s (o.finish job)
        | .error e => (.error e, s)
    cases o.flags.check with
    | false => exact enact_lowerProgram o program
    | true =>
      rw [if_pos rfl, if_pos rfl, enact_liftExcept]
      cases checkUnits program.units with
      | error e => rfl
      | ok u => exact enact_lowerProgram o program

private theorem runOn_eq (arguments : List String) (s : σ) :
    runOn arguments s =
      if arguments.isEmpty then (⟨1, fileText help, ""⟩, s)
      else if asksForHelp arguments then (⟨0, fileText help, ""⟩, s)
      else match Options.ofArguments arguments with
      | .error e => (.failure s!"Error: {e.message}", s)
      | .ok o =>
        if o.flags.tokens then (answer s (showTokens o), s)
        else (.ofResult (enact s (lower o)).1, (enact s (lower o)).2) := by
  rw [runOn, run]
  cases arguments.isEmpty with
  | true => rfl
  | false =>
    cases asksForHelp arguments with
    | true => rfl
    | false =>
      simp only [Bool.false_eq_true, if_false]
      cases Options.ofArguments arguments with
      | error e => rfl
      | ok o =>
        dsimp only
        cases o.flags.tokens with
        | true => exact (keeps_showTokens o).run_eq s
        | false =>
          rw [if_neg Bool.false_ne_true, if_neg Bool.false_ne_true, StateT.run_bind]
          unfold enact
          rcases StateT.run (lower o).run s with ⟨_ | _, t⟩ <;> rfl

variable {arguments : List String} {o : Options} {j : Job}

/-- A run that neither shows help nor tokens lowers its input. -/
theorem runOn_of_options (hh : asksForHelp arguments = false)
    (ho : Options.ofArguments arguments = .ok o) (ht : o.flags.tokens = false) :
    runOn arguments s = (.ofResult (enact s (lower o)).1, (enact s (lower o)).2) := by
  have hne : arguments.isEmpty = false := by
    cases arguments with
    | nil => cases ho
    | cons a rest => rfl
  rw [runOn_eq, hne, hh, ho]
  simp [ht]

/-- A run that succeeds without help has understood its arguments. -/
theorem options_of_status (hh : asksForHelp arguments = false)
    (hs : (runOn arguments s).1.status = 0) : ∃ o, Options.ofArguments arguments = .ok o := by
  have hone : (1 : UInt32) ≠ 0 := by decide
  rw [runOn_eq, hh] at hs
  split at hs
  · exact absurd hs hone
  · cases ho : Options.ofArguments arguments with
    | ok o => exact ⟨o, rfl⟩
    | error e =>
      rw [ho] at hs
      exact absurd hs hone

theorem Prepares.finishes (h : Prepares arguments s o j) : ∃ r,
    (runOn arguments s).1 = .ofResult r ∧ Finishes o j s r (runOn arguments s).2 := by
  rw [runOn_of_options h.help h.options h.tokens, enact_lower, h.job]
  exact ⟨_, rfl, finishes_finish o j s⟩

/-- A run that succeeds has come to a job, and finished it. -/
theorem finished_of_status (hh : asksForHelp arguments = false)
    (ho : Options.ofArguments arguments = .ok o) (ht : o.flags.tokens = false)
    (hs : (runOn arguments s).1.status = 0) : ∃ j t, o.prepare s = .ok j ∧ SavesBinary o j s t ∧
      enact t (writeAtomic j.output j.bytes) = (.ok (), (runOn arguments s).2) := by
  cases hj : o.prepare s with
  | error e =>
    rw [runOn_of_options hh ho ht, enact_lower, hj, Outcome.status_ofResult_eq_zero_iff] at hs
    obtain ⟨out, ho⟩ := hs
    cases ho
  | ok j =>
    obtain ⟨r, hr, hf⟩ := Prepares.finishes ⟨hh, ho, ht, hj⟩
    rw [hr, Outcome.status_ofResult_eq_zero_iff] at hs
    obtain ⟨out, rfl⟩ := hs
    cases hf with
    | finished hb h => exact ⟨j, _, rfl, hb, h⟩

/-- A run that does not come to a job changes nothing. -/
theorem runOn_of_unprepared (h : ∀ o j, ¬Prepares arguments s o j) : (runOn arguments s).2 = s := by
  rw [runOn_eq]
  split
  · rfl
  · split
    · rfl
    · next hh =>
      split
      · rfl
      · next o ho =>
        split
        · rfl
        · next ht =>
          rw [enact_lower]
          split
          · next j hj => exact absurd ⟨by simpa using hh, ho, by simpa using ht, hj⟩ (h o j)
          · rfl

end StackLowering.CommandLine
