import StackLowering.Proofs.StackCheck.Flow
/-! What a check of the stack without an underflow says about a list that jumps forwards only. The
check keeps one height for each place, so it speaks for the ways of control that come to no label
with fewer words. -/
namespace StackLowering

def checkedAt? (ls : List Located) (i : Nat) : Option Nat :=
  match ls[i]?, StackCheck.initial.run (ls.take i) with
  | some l, .ok s => s.found? l.command
  | _, _ => none

def Targets (ls : List Located) (i j : Nat) : Prop :=
  (jumpAt? ls i).isSome ∧ jumpAt? ls i = labelAt? ls j ∧ begun ls i = begun ls j

instance (ls : List Located) (i j : Nat) : Decidable (Targets ls i j) :=
  inferInstanceAs (Decidable (_ ∧ _ ∧ _))

def DistinctLabels (ls : List Located) : Prop :=
  ∀ i < ls.length, ∀ j < ls.length, (labelAt? ls i).isSome → labelAt? ls i = labelAt? ls j →
    begun ls i = begun ls j → i = j

def ForwardJumps (ls : List Located) : Prop :=
  ∀ i < ls.length, (jumpAt? ls i).isSome → ∃ j < ls.length, i < j ∧ Targets ls i j

/-- No jump leaves fewer words, as the check counts them, than its label is taken with. -/
def LevelJumps (ls : List Located) : Prop :=
  ∀ i < ls.length, ∀ j < ls.length, Targets ls i j → ∀ l ∈ ls[i]?, ∀ h ∈ checkedAt? ls i,
    ∀ k ∈ checkedAt? ls j, k ≤ l.command.leaves h

instance (ls : List Located) : Decidable (DistinctLabels ls) :=
  inferInstanceAs (Decidable (∀ i < _, _))

instance (ls : List Located) : Decidable (ForwardJumps ls) :=
  inferInstanceAs (Decidable (∀ i < _, _))

instance (ls : List Located) : Decidable (LevelJumps ls) :=
  inferInstanceAs (Decidable (∀ i < _, _))

/-- Control passes on, and comes to a label that it jumps to with no fewer words than the check
takes the label with. -/
def LevelFlow (ls : List Located) (p q : Point) : Prop :=
  Flow ls p q ∧ (Targets ls p.place q.place → ∀ k ∈ checkedAt? ls q.place, k ≤ q.height)

namespace StackCheck
variable {ls : List Located} {e i j k : Nat} {s t : StackCheck} {l : Located} {n : String}
  {p q : Point}

private theorem At.checkedAt? (h : At ls i s) (hl : ls[i]? = some l) :
    checkedAt? ls i = s.found? l.command := by
  rw [StackLowering.checkedAt?, hl, show initial.run (ls.take i) = .ok s from h]

/-- At a known height every command is taken with that height or, if it begins a function, with
none. -/
private theorem found?_of_height {height : Nat} (h : s.height = some height) (c : Command) :
    ∃ m ≤ height, s.found? c = some m := by
  cases c with
  | function n k => exact ⟨0, Nat.zero_le _, rfl⟩
  | label n => exact ⟨height, Nat.le_refl _, by rw [found?, h, Option.some_or]⟩
  | _ => exact ⟨height, Nat.le_refl _, h⟩

def Supported (ls : List Located) (p : Point) : Prop :=
  ∀ l, ls[p.place]? = some l → ∃ h, checkedAt? ls p.place = some h ∧ h ≤ p.height

private theorem supported_entry (hok : checkStack ls = .ok ()) (he : IsEntry ls e) :
    Supported ls ⟨e, 0⟩ := by
  intro l hl
  change ls[e]? = some l at hl
  change ∃ h, checkedAt? ls e = some h ∧ h ≤ 0
  obtain ⟨s, hs⟩ := exists_at hok e
  rw [hs.checkedAt? hl]
  rcases he with rfl | ⟨m, hm, he⟩
  · obtain rfl := (at_zero ls).unique hs
    obtain ⟨m, hle, hf⟩ := found?_of_height (s := initial) rfl l.command
    exact ⟨m, hf, hle⟩
  · obtain rfl := Option.some.inj (hl.symm.trans hm)
    cases hc : l.command with
    | function n k => exact ⟨0, rfl, Nat.le_refl 0⟩
    | _ =>
      rw [hc] at he
      cases he

/-- The check passes a command that control comes to, and takes it with no more words than control
brings. -/
private theorem Supported.passed (hok : checkStack ls = .ok ()) (hp : Supported ls ⟨i, k⟩)
    (hl : ls[i]? = some l) : ∃ t, At ls (i + 1) t ∧
      ((l.command.entered?.isSome = true ∧ t = initial) ∨
        ∃ (s : StackCheck) (h : Nat), l.command.effect.1 ≤ h ∧ h ≤ k ∧
          t = s.leave l.command (l.command.leaves h)) := by
  obtain ⟨t, ht⟩ := exists_at hok (i + 1)
  obtain ⟨s, hs, hstep⟩ := ht.pred hl
  obtain ⟨h, hh, hle⟩ := hp l hl
  rw [hs.checkedAt? hl] at hh
  refine ⟨t, ht, ?_⟩
  rcases step_cases hstep with hentered | ⟨-, hf, -⟩ | ⟨-, height, hf, heffect, rfl⟩
  · exact .inl hentered
  · rw [hf] at hh
    cases hh
  · obtain rfl := Option.some.inj (hf.symm.trans hh)
    exact .inr ⟨s, height, heffect, hle, rfl⟩

/-- A command with a supported height finds enough words. -/
private theorem Supported.effect_le (hok : checkStack ls = .ok ()) (hp : Supported ls ⟨i, k⟩)
    (hl : ls[i]? = some l) : l.command.effect.1 ≤ k := by
  obtain ⟨t, -, ⟨he, -⟩ | ⟨s, h, heffect, hle, -⟩⟩ := hp.passed hok hl
  · rw [(Command.effect_of_entered? he).1]
    exact Nat.zero_le k
  · exact Nat.le_trans heffect hle

/-- Control goes on in the next place with a supported height. -/
private theorem Supported.next (hok : checkStack ls = .ok ()) (hp : Supported ls ⟨i, k⟩)
    (hl : ls[i]? = some l) (hpass : l.command.passes = true) :
    Supported ls ⟨i + 1, l.command.leaves k⟩ := by
  intro m hm
  change ls[i + 1]? = some m at hm
  change ∃ h, checkedAt? ls (i + 1) = some h ∧ h ≤ l.command.leaves k
  obtain ⟨t, ht, ⟨-, rfl⟩ | ⟨s, h, -, hle, rfl⟩⟩ := hp.passed hok hl
  · obtain ⟨x, hx, hf⟩ := found?_of_height (s := initial) rfl m.command
    exact ⟨x, (ht.checkedAt? hm).trans hf, Nat.le_trans hx (Nat.zero_le _)⟩
  · have hheight : (s.leave l.command (l.command.leaves h)).height =
        some (l.command.leaves h) := by rw [height_leave, if_pos hpass]
    obtain ⟨x, hx, hf⟩ := found?_of_height hheight m.command
    exact ⟨x, (ht.checkedAt? hm).trans hf, Nat.le_trans hx (l.command.leaves_mono hle)⟩

/-- A noted height stays up to the end of the function. -/
private theorem lookup_isSome_of_begun_eq (hs : At ls (i + 1) s) (hn : (s.atLabel.lookup n).isSome)
    (hij : i < j) (hj : j < ls.length) (hb : begun ls i = begun ls j) (ht : At ls j t) :
    (t.atLabel.lookup n).isSome := by
  induction j generalizing t with
  | zero => exact absurd hij (Nat.not_lt_zero i)
  | succ j ih =>
    rcases Nat.eq_or_lt_of_le (Nat.le_of_lt_succ hij) with rfl | hlt
    · rwa [ht.unique hs]
    · have hl : ls[j]? = some ls[j] := List.getElem?_eq_getElem (by omega)
      obtain ⟨r, hr, hstep⟩ := ht.pred hl
      have hbj : begun ls i = begun ls j := by
        have hle := begun_le_begun ls (Nat.le_of_lt hlt)
        have hge := begun_le_begun ls (Nat.le_add_right j 1)
        omega
      have hlookup := ih hlt (by omega) hbj hr
      rcases step_cases hstep with ⟨he, -⟩ | ⟨-, -, -, rfl⟩ | ⟨-, h, -, -, rfl⟩
      · rw [entered?_of_begun_eq hb hlt j.le_succ hl] at he
        cases he
      · exact hlookup
      · rw [lookup_leave, Option.isSome_or, hlookup, Bool.true_or]

/-- The label of a jump that control comes to is taken with some height. -/
private theorem Supported.checked_target (hok : checkStack ls = .ok ()) (hp : Supported ls ⟨i, k⟩)
    (hl : ls[i]? = some l) (hjump : l.command.jump? = some n) (hij : i < j)
    (hlabel : labelAt? ls j = some n) (hb : begun ls i = begun ls j) :
    ∃ h, checkedAt? ls j = some h := by
  obtain ⟨m, hm, hc⟩ := labelAt?_eq_some_iff.1 hlabel
  obtain ⟨t, ht, hcases⟩ := hp.passed hok hl
  have hnoted : (t.atLabel.lookup n).isSome := by
    rcases hcases with ⟨he, -⟩ | ⟨s, h, -, -, rfl⟩
    · rw [(Command.effect_of_entered? he).2.2] at hjump
      cases hjump
    · rw [lookup_leave, hjump, if_pos rfl, Option.isSome_or, Option.isSome_some, Bool.or_true]
  obtain ⟨r, hr⟩ := exists_at hok j
  have hlookup := lookup_isSome_of_begun_eq ht hnoted hij (List.getElem?_eq_some_iff.1 hm).1 hb hr
  rw [hr.checkedAt? hm, hc, found?, ← Option.isSome_iff_exists, Option.isSome_or, hlookup,
    Bool.or_true]

/-- The label that a jump comes to is further down. -/
private theorem lt_of_targets (hd : DistinctLabels ls) (hf : ForwardJumps ls) (h : Targets ls i j) :
    i < j := by
  obtain ⟨n, hn⟩ := Option.isSome_iff_exists.1 h.1
  obtain ⟨l, hl, -⟩ := Option.bind_eq_some_iff.1 hn
  obtain ⟨m, hm, -⟩ := labelAt?_eq_some_iff.1 (h.2.1.symm.trans hn)
  obtain ⟨j', hj', hij', h'⟩ := hf i (List.getElem?_eq_some_iff.1 hl).1 h.1
  have hjj' : j = j' := hd j (List.getElem?_eq_some_iff.1 hm).1 j' hj' (h.2.1 ▸ h.1)
    (h.2.1.symm.trans h'.2.1) (h.2.2.symm.trans h'.2.2)
  rwa [hjj']

/-- A supported height stays one along level control. -/
private theorem Supported.flow (hok : checkStack ls = .ok ()) (hd : DistinctLabels ls)
    (hf : ForwardJumps ls) (hp : Supported ls p) (h : LevelFlow ls p q) : Supported ls q := by
  obtain ⟨hflow, hlevel⟩ := h
  cases hflow with
  | next hl _ hpass => exact hp.next hok hl hpass
  | @jump i j k l n hl _ hjump hlabel hb =>
    have hn : jumpAt? ls i = some n := Option.bind_eq_some_iff.2 ⟨l, hl, hjump⟩
    have htarget : Targets ls i j := ⟨by rw [hn]; rfl, hn.trans hlabel.symm, hb⟩
    intro m _
    obtain ⟨x, hx⟩ := hp.checked_target hok hl hjump (lt_of_targets hd hf htarget) hlabel hb
    exact ⟨x, hx, hlevel htarget x hx⟩

private theorem Supported.path (hok : checkStack ls = .ok ()) (hd : DistinctLabels ls)
    (hf : ForwardJumps ls) (hp : Supported ls p) (h : Relation.ReflTransGen (LevelFlow ls) p q) :
    Supported ls q := by
  induction h with
  | refl => exact hp
  | tail _ hstep ih => exact ih.flow hok hd hf hstep

/-- Where the jumps of the list are level, control brings enough words to every label. -/
private theorem Supported.levelFlow (hl : LevelJumps ls) (hp : Supported ls p) (h : Flow ls p q) :
    LevelFlow ls p q := by
  refine ⟨h, fun ht k hk => ?_⟩
  obtain ⟨l, hlp, hq⟩ : ∃ l, ls[p.place]? = some l ∧ q.height = l.command.leaves p.height := by
    cases h with
    | next hl => exact ⟨_, hl, rfl⟩
    | jump hl => exact ⟨_, hl, rfl⟩
  obtain ⟨x, hx, hle⟩ := hp l hlp
  obtain ⟨n, hn⟩ := Option.isSome_iff_exists.1 ht.1
  obtain ⟨m, hm, -⟩ := labelAt?_eq_some_iff.1 (ht.2.1.symm.trans hn)
  have hkx : k ≤ l.command.leaves x := hl p.place (List.getElem?_eq_some_iff.1 hlp).1 q.place
    (List.getElem?_eq_some_iff.1 hm).1 ht l hlp x hx k hk
  rw [hq]
  exact Nat.le_trans hkx (l.command.leaves_mono hle)

private theorem Supported.path_of_levelJumps (hok : checkStack ls = .ok ()) (hd : DistinctLabels ls)
    (hf : ForwardJumps ls) (hl : LevelJumps ls) (hp : Supported ls p)
    (h : Relation.ReflTransGen (Flow ls) p q) : Supported ls q := by
  induction h with
  | refl => exact hp
  | tail _ hstep ih => exact ih.flow hok hd hf (ih.levelFlow hl hstep)

end StackCheck

/-- In a list that jumps forwards only, and is checked without an underflow, every command finds
enough words on each way from an entry that comes to no label with fewer words than the check does.
When the jumps are level, that is every way from an entry. -/
theorem checked_paths_find_words {ls : List Located} (hd : DistinctLabels ls)
    (hf : ForwardJumps ls) (hok : checkStack ls = .ok ()) {e i k : Nat} {l : Located}
    (he : IsEntry ls e) (hl : ls[i]? = some l) :
    (Relation.ReflTransGen (LevelFlow ls) ⟨e, 0⟩ ⟨i, k⟩ → l.command.effect.1 ≤ k) ∧
      (LevelJumps ls → FlowsTo ls e ⟨i, k⟩ → l.command.effect.1 ≤ k) := by
  have hp := StackCheck.supported_entry hok he
  exact ⟨fun h => (hp.path hok hd hf h).effect_le hok hl,
    fun hlevel h => (hp.path_of_levelJumps hok hd hf hlevel h).effect_le hok hl⟩

/-- A list in which both ways to a label leave the same height there. -/
def oneOrTwo : List Located :=
  [⟨1, "", .function "f" 0⟩, ⟨2, "", .push .constant 0⟩, ⟨3, "", .ifGoto "A"⟩,
    ⟨4, "", .push .constant 1⟩, ⟨5, "", .goto "B"⟩, ⟨6, "", .label "A"⟩,
    ⟨7, "", .push .constant 2⟩, ⟨8, "", .label "B"⟩, ⟨9, "", .ret⟩]

theorem oneOrTwo_finds_words : DistinctLabels oneOrTwo ∧ ForwardJumps oneOrTwo ∧
    checkStack oneOrTwo = .ok () ∧ LevelJumps oneOrTwo ∧ FlowsTo oneOrTwo 0 ⟨8, 1⟩ ∧
    Command.ret.effect.1 ≤ 1 := by
  have hd : DistinctLabels oneOrTwo := by decide
  have hf : ForwardJumps oneOrTwo := by decide
  have hl : LevelJumps oneOrTwo := by decide
  have hpath : FlowsTo oneOrTwo 0 ⟨8, 1⟩ := by
    have h₁ : FlowsTo oneOrTwo 0 ⟨1, 0⟩ := FlowsTo.next .refl rfl (by decide) rfl rfl
    have h₂ : FlowsTo oneOrTwo 0 ⟨2, 1⟩ := h₁.next rfl (by decide) rfl rfl
    have h₅ : FlowsTo oneOrTwo 0 ⟨5, 0⟩ := h₂.jump rfl (by decide) rfl rfl (by decide) rfl
    have h₆ : FlowsTo oneOrTwo 0 ⟨6, 0⟩ := h₅.next rfl (by decide) rfl rfl
    have h₇ : FlowsTo oneOrTwo 0 ⟨7, 1⟩ := h₆.next rfl (by decide) rfl rfl
    exact h₇.next rfl (by decide) rfl rfl
  exact ⟨hd, hf, rfl, hl, hpath,
    (checked_paths_find_words (l := ⟨9, "", .ret⟩) hd hf rfl (.inl rfl) rfl).2 hl hpath⟩

/-- A list in which the check takes a label with the word of the way past a jump, which the jump
itself does not bring. -/
def jumpToReturn : List Located :=
  [⟨1, "", .function "f" 0⟩, ⟨2, "", .push .constant 0⟩, ⟨3, "", .ifGoto "A"⟩,
    ⟨4, "", .push .constant 1⟩, ⟨5, "", .label "A"⟩, ⟨6, "", .ret⟩]

/-- That jumps go forwards is not enough, since the check keeps one height for a label. -/
theorem jumpToReturn_finds_nothing : ¬ ∀ ls : List Located, ls.length < 2147483648 →
    DistinctLabels ls → ForwardJumps ls → checkStack ls = .ok () → ∀ e i k l, IsEntry ls e →
    ls[i]? = some l → FlowsTo ls e ⟨i, k⟩ → l.command.effect.1 ≤ k := by
  intro h
  have hpath : FlowsTo jumpToReturn 0 ⟨5, 0⟩ := by
    have h₁ : FlowsTo jumpToReturn 0 ⟨1, 0⟩ := FlowsTo.next .refl rfl (by decide) rfl rfl
    have h₂ : FlowsTo jumpToReturn 0 ⟨2, 1⟩ := h₁.next rfl (by decide) rfl rfl
    have h₄ : FlowsTo jumpToReturn 0 ⟨4, 0⟩ := h₂.jump rfl (by decide) rfl rfl (by decide) rfl
    exact h₄.next rfl (by decide) rfl rfl
  have hle : Command.ret.effect.1 ≤ 0 := h jumpToReturn (by decide) (by decide) (by decide) rfl
    0 5 0 ⟨6, "", .ret⟩ (.inl rfl) rfl hpath
  exact absurd hle (by decide)

end StackLowering
