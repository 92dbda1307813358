import Mathlib.Data.List.Forall2
/-! When a result that is made of others, any of which may be a failure, is a value, and of a list
also which failure it is. -/
namespace StackLowering
variable {ε δ α β : Type} {x : Except ε α}

theorem bind_eq_ok_iff {f : α → Except ε β} {b : β} :
    x >>= f = .ok b ↔ ∃ a, x = .ok a ∧ f a = .ok b := by
  cases x <;> simp [bind, Except.bind]

theorem pure_eq_ok_iff {a b : α} : (pure a : Except ε α) = .ok b ↔ b = a :=
  ⟨fun h => (Except.ok.inj h).symm, fun h => h ▸ rfl⟩

theorem map_eq_ok_iff {f : α → β} {b : β} : f <$> x = .ok b ↔ ∃ a, x = .ok a ∧ f a = b := by
  cases x <;> simp [Functor.map, Except.map]

theorem map_eq_error_iff {f : α → β} {e : ε} : f <$> x = .error e ↔ x = .error e := by
  cases x <;> simp [Functor.map, Except.map]

theorem mapError_eq_ok_iff {f : ε → δ} {a : α} : x.mapError f = .ok a ↔ x = .ok a := by
  cases x with
  | error e => exact ⟨(nomatch ·), (nomatch ·)⟩
  | ok b =>
    have hf : (Except.ok b : Except ε α).mapError f = .ok b := rfl
    rw [hf, Except.ok.injEq, Except.ok.injEq]

section
variable {f : α → Except ε β} {xs : List α}

private theorem mapM_cons_of_ok {x : α} {y : β} (h : f x = .ok y) :
    (x :: xs).mapM f = (y :: ·) <$> xs.mapM f := by
  rw [List.mapM_cons, h]
  rfl

private theorem mapM_cons_of_error {x : α} {e : ε} (h : f x = .error e) :
    (x :: xs).mapM f = .error e := by
  rw [List.mapM_cons, h]
  rfl

theorem mapM_congr {g : α → Except ε β} (h : ∀ x ∈ xs, f x = g x) : xs.mapM f = xs.mapM g := by
  induction xs with
  | nil => rfl
  | cons x xs ih =>
    rw [List.forall_mem_cons] at h
    rw [List.mapM_cons, List.mapM_cons, h.1, ih h.2]

theorem mapM_eq_ok_iff {ys : List β} :
    xs.mapM f = .ok ys ↔ List.Forall₂ (fun x y => f x = .ok y) xs ys := by
  induction xs generalizing ys with
  | nil => simp [pure, Except.pure, eq_comm]
  | cons x xs ih =>
    rw [List.forall₂_cons_left_iff]
    cases h : f x with
    | error e => simp [mapM_cons_of_error h]
    | ok y =>
      rw [mapM_cons_of_ok h]
      simp only [← ih, Except.ok.injEq]
      cases xs.mapM f with
      | error e => simp [Functor.map, Except.map]
      | ok zs => simp [Functor.map, Except.map, eq_comm]

/-- The first of its kind is the head, or it is the first behind a head of the other kind. -/
private theorem exists_first_cons {P Q : α → Prop} {x : α} :
    (∃ front y back, x :: xs = front ++ y :: back ∧ (∀ z ∈ front, P z) ∧ Q y) ↔
      Q x ∨ P x ∧ ∃ front y back, xs = front ++ y :: back ∧ (∀ z ∈ front, P z) ∧ Q y := by
  constructor
  · rintro ⟨_ | ⟨w, front⟩, y, back, hs, hf, hy⟩
    · obtain ⟨rfl, -⟩ := List.cons.inj hs
      exact .inl hy
    · obtain ⟨rfl, rfl⟩ := List.cons.inj hs
      rw [List.forall_mem_cons] at hf
      exact .inr ⟨hf.1, front, y, back, rfl, hf.2, hy⟩
  · rintro (hx | ⟨hx, front, y, back, rfl, hf, hy⟩)
    · exact ⟨[], x, xs, rfl, List.forall_mem_nil _, hx⟩
    · exact ⟨x :: front, y, back, rfl, List.forall_mem_cons.2 ⟨hx, hf⟩, hy⟩

/-- The first failure is what a list comes to. -/
theorem mapM_eq_error_iff {e : ε} :
    xs.mapM f = .error e ↔ ∃ front x back, xs = front ++ x :: back ∧
      (∀ y ∈ front, ∃ b, f y = .ok b) ∧ f x = .error e := by
  induction xs with
  | nil => simp [pure, Except.pure]
  | cons x xs ih =>
    rw [exists_first_cons]
    cases h : f x with
    | error e' => simp [mapM_cons_of_error h]
    | ok y =>
      rw [mapM_cons_of_ok h, map_eq_error_iff, ih]
      simp

end
end StackLowering
