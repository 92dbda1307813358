import StackLowering.Disk.Tree
/-! Computations on the state of a file system. One that only reads leaves every state as it is, so
that what it is made of may be asked of the state part by part. -/
namespace StackLowering.Disk
variable {σ α β ε δ : Type} {s t : σ}

section Enact
variable {x : ExceptT ε (StateM σ) α} {a : α} {e : ε}

/-- What a computation that may fail comes to, and what it leaves of any state. -/
def enact (s : σ) (x : ExceptT ε (StateM σ) α) : Except ε α × σ := x.run.run s

theorem enact_bind_of_ok (h : enact s x = (.ok a, t)) (f : α → ExceptT ε (StateM σ) β) :
    enact s (x >>= f) = enact t (f a) := by
  rw [enact] at h
  rw [enact, ExceptT.run_bind, StateT.run_bind, h]
  rfl

theorem enact_bind_of_error (h : enact s x = (.error e, t))
    (f : α → ExceptT ε (StateM σ) β) : enact s (x >>= f) = (.error e, t) := by
  rw [enact] at h
  rw [enact, ExceptT.run_bind, StateT.run_bind, h]
  rfl

theorem enact_bind (s : σ) (x : ExceptT ε (StateM σ) α) (f : α → ExceptT ε (StateM σ) β) :
    enact s (x >>= f) = match enact s x with
      | (.ok a, t) => enact t (f a)
      | (.error e, t) => (.error e, t) := by
  rcases h : enact s x with ⟨_ | _, t⟩
  · exact enact_bind_of_error h f
  · exact enact_bind_of_ok h f

theorem enact_tryCatch_of_ok (h : enact s x = (.ok a, t))
    (f : ε → ExceptT ε (StateM σ) α) : enact s (tryCatch x f) = (.ok a, t) := by
  rw [enact] at h
  rw [enact, ExceptT.run_tryCatch, StateT.run_bind, h]
  rfl

theorem enact_tryCatch_of_error (h : enact s x = (.error e, t))
    (f : ε → ExceptT ε (StateM σ) α) : enact s (tryCatch x f) = enact t (f e) := by
  rw [enact] at h
  rw [enact, ExceptT.run_tryCatch, StateT.run_bind, h]
  rfl

theorem enact_adapt (s : σ) (x : ExceptT ε (StateM σ) α) (f : ε → δ) :
    enact s (x.adapt f) = ((enact s x).1.mapError f, (enact s x).2) := rfl

end Enact

/-- What a computation comes to, apart from what it leaves of the state. -/
def answer (s : σ) (x : StateM σ α) : α := (x.run s).1

def ask (s : σ) (x : ExceptT ε (StateM σ) α) : Except ε α := answer s x.run

def Keeps (x : StateM σ α) : Prop := ∀ s, (x.run s).2 = s

theorem Keeps.run_eq {x : StateM σ α} (h : Keeps x) (s : σ) : x.run s = (answer s x, s) :=
  Prod.ext rfl (h s)

theorem keeps_pure (a : α) : Keeps (pure a : StateM σ α) := fun _ => rfl

theorem answer_pure (a : α) : answer s (pure a : StateM σ α) = a := rfl

theorem Keeps.bind {x : StateM σ α} {f : α → StateM σ β} (hx : Keeps x)
    (hf : ∀ a, Keeps (f a)) : Keeps (x >>= f) := fun s => by
  rw [StateT.run_bind, hx.run_eq]
  exact hf _ s

theorem Keeps.answer_bind {x : StateM σ α} (hx : Keeps x) (f : α → StateM σ β) :
    answer s (x >>= f) = answer s (f (answer s x)) := by
  rw [answer, StateT.run_bind, hx.run_eq]
  rfl

section Failing
variable {x : ExceptT ε (StateM σ) α} {f : α → ExceptT ε (StateM σ) β}

private theorem Keeps.enact_eq (hx : Keeps x.run) (s : σ) : enact s x = (ask s x, s) := hx.run_eq s

theorem Keeps.enact_bind (hx : Keeps x.run) (f : α → ExceptT ε (StateM σ) β) :
    enact s (x >>= f) = match ask s x with
      | .ok a => enact s (f a)
      | .error e => (.error e, s) := by
  rw [Disk.enact_bind, hx.enact_eq]
  cases ask s x <;> rfl

theorem keeps_ok (a : α) : Keeps (pure a : ExceptT ε (StateM σ) α).run := keeps_pure _

theorem keeps_error (e : ε) : Keeps (throw e : ExceptT ε (StateM σ) α).run := keeps_pure _

theorem Keeps.andThen (hx : Keeps x.run) (hf : ∀ a, Keeps (f a).run) : Keeps (x >>= f).run := by
  rw [ExceptT.run_bind]
  refine hx.bind fun r => ?_
  cases r with
  | ok a => exact hf a
  | error e => exact keeps_pure _

theorem Keeps.ask_bind (hx : Keeps x.run) (f : α → ExceptT ε (StateM σ) β) :
    ask s (x >>= f) = ask s x >>= fun a => ask s (f a) := by
  rw [ask, ExceptT.run_bind, hx.answer_bind, ask]
  cases answer s x.run <;> rfl

/-- A computation that cannot fail, among others that can. -/
theorem Keeps.lift {x : StateM σ α} (hx : Keeps x) :
    Keeps (liftM x : ExceptT ε (StateM σ) α).run :=
  fun s => hx s

theorem ask_lift (x : StateM σ α) :
    ask s (liftM x : ExceptT ε (StateM σ) α) = .ok (answer s x) := rfl

theorem Keeps.enact_lift {x : StateM σ α} (hx : Keeps x) (f : α → ExceptT ε (StateM σ) β) :
    enact s ((liftM x : ExceptT ε (StateM σ) α) >>= f) = enact s (f (answer s x)) :=
  hx.lift.enact_bind f

theorem Keeps.adapt (hx : Keeps x.run) (f : ε → δ) : Keeps (x.adapt f).run :=
  fun s => hx s

theorem ask_adapt (x : ExceptT ε (StateM σ) α) (f : ε → δ) :
    ask s (x.adapt f) = (ask s x).mapError f := rfl

theorem keeps_mapM {f : α → ExceptT ε (StateM σ) β} (hf : ∀ a, Keeps (f a).run)
    (xs : List α) : Keeps (xs.mapM f).run := by
  induction xs with
  | nil => exact keeps_ok []
  | cons x xs ih =>
    rw [List.mapM_cons]
    exact (hf x).andThen fun a => ih.andThen fun as => keeps_ok _

theorem ask_mapM {f : α → ExceptT ε (StateM σ) β} (hf : ∀ a, Keeps (f a).run)
    (xs : List α) : ask s (xs.mapM f) = xs.mapM fun x => ask s (f x) := by
  induction xs with
  | nil => rfl
  | cons x xs ih =>
    rw [List.mapM_cons, (hf x).ask_bind, List.mapM_cons]
    congr 1
    funext a
    rw [(keeps_mapM hf xs).ask_bind, ih]
    rfl

private theorem keeps_filterAuxM {f : α → StateM σ Bool} (hf : ∀ a, Keeps (f a))
    (xs found : List α) :
    Keeps (xs.filterAuxM (fun a => (liftM (f a) : ExceptT ε (StateM σ) Bool)) found).run := by
  induction xs generalizing found with
  | nil => exact keeps_ok found
  | cons x xs ih => exact (hf x).lift.andThen fun b => ih _

private theorem ask_filterAuxM {f : α → StateM σ Bool} (hf : ∀ a, Keeps (f a))
    (xs found : List α) :
    ask s (xs.filterAuxM (fun a => (liftM (f a) : ExceptT ε (StateM σ) Bool)) found) =
      .ok ((xs.filter fun a => answer s (f a)).reverse ++ found) := by
  induction xs generalizing found with
  | nil => rfl
  | cons x xs ih =>
    rw [List.filterAuxM, (hf x).lift.ask_bind, ask_lift]
    refine (ih _).trans ?_
    cases h : answer s (f x) <;> simp [h]

theorem keeps_filterM {f : α → StateM σ Bool} (hf : ∀ a, Keeps (f a)) (xs : List α) :
    Keeps (xs.filterM fun a => (liftM (f a) : ExceptT ε (StateM σ) Bool)).run :=
  (keeps_filterAuxM hf xs []).andThen fun _ => keeps_ok _

theorem ask_filterM {f : α → StateM σ Bool} (hf : ∀ a, Keeps (f a)) (xs : List α) :
    ask s (xs.filterM fun a => (liftM (f a) : ExceptT ε (StateM σ) Bool)) =
      .ok (xs.filter fun a => answer s (f a)) := by
  rw [List.filterM, (keeps_filterAuxM hf xs []).ask_bind, ask_filterAuxM hf, List.append_nil]
  show Except.ok (List.reverse _) = _
  rw [List.reverse_reverse]

end Failing

/-- File systems that are left as they are where they are only read. -/
class LawfulAccess (σ : Type) [Access (StateM σ)] : Prop where
  isDirectory (p : Path) : Keeps (Access.isDirectory p : StateM σ Bool)
  isFile (l : Location) : Keeps (Access.isFile l : StateM σ Bool)
  read (l : Location) : Keeps (Access.read l : ExceptT Fault (StateM σ) _).run
  names (p : Path) : Keeps (Access.names p : ExceptT Fault (StateM σ) _).run
  ownName? (p : Path) : Keeps (Access.ownName? p : StateM σ _)

section Access
variable [Access (StateM σ)] [LawfulAccess σ] {l : Location}

theorem keeps_readText (l : Location) : Keeps (readText l : ExceptT Fault (StateM σ) _).run :=
  (LawfulAccess.read l).andThen fun bytes => by
    cases Text.ofBytes? bytes
    · exact keeps_error _
    · exact keeps_ok _

theorem ask_readText (s : σ) (l : Location) : ask s (readText l) =
    ask s (Access.read l) >>= fun bytes => (Text.ofBytes? bytes).elim (.error .notText) .ok := by
  rw [readText, (LawfulAccess.read l).ask_bind]
  congr 1
  funext bytes
  cases Text.ofBytes? bytes <;> rfl

theorem ask_readText_of_read {bytes : List UInt8} (h : ask s (Access.read l) = .ok bytes) :
    ask s (readText l) = (Text.ofBytes? bytes).elim (.error .notText) .ok := by
  rw [ask_readText, h]
  rfl

theorem ask_readText_eq_ok_iff {text : String} : ask s (readText l) = .ok text ↔
    ∃ bytes, ask s (Access.read l) = .ok bytes ∧ Text.ofBytes? bytes = some text := by
  rw [ask_readText]
  cases ask s (Access.read l) with
  | error fault => simp [Except.bind, bind]
  | ok bytes =>
    show (Text.ofBytes? bytes).elim _ _ = _ ↔ _
    cases h : Text.ofBytes? bytes <;> simp [h]

end Access

namespace Volume
variable {v : Volume} (p : Path)

instance : LawfulAccess Volume where
  isDirectory _ _ := rfl
  isFile l _ := by cases l <;> rfl
  read l _ := by cases l <;> rfl
  names _ _ := rfl
  ownName? _ _ := rfl

theorem ask_read : ask v (Access.read (.path p)) = v.read p := rfl

theorem ask_names : ask v (Access.names p) = (v.names p).map (·.map Text.toBytes) := rfl

end Volume

instance : LawfulAccess Tree where
  isDirectory _ _ := rfl
  isFile l _ := by cases l <;> rfl
  read l _ := by cases l <;> rfl
  names _ _ := rfl
  ownName? _ _ := rfl

end StackLowering.Disk
