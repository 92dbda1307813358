import Mathlib.Data.List.Chain
import StackLowering.Proofs.Lowering.Acceptance
/-! Which labels a jump can come to. A label inside a function is found from inside that function
alone, up to the dollar sign: names may contain it, so a function and a label may spell together
what another function and another label spell. -/
namespace StackLowering

/-- The function `g` goes on behind `f` and a dollar sign with the text that the label `n` begins
with, so that `n` in `f` is spelled as `m` in `g`. -/
def Straddles (f n g m : String) : Prop := ∃ t, g = f ++ "$" ++ t ∧ n = t ++ "$" ++ m

/-- Two lists around the same mark come to the same only if one of the first parts goes on with
the mark. -/
private theorem append_cons_eq_append_cons_iff {α : Type} {a b c d : List α} {x : α} :
    a ++ x :: b = c ++ x :: d ↔
      (a = c ∧ b = d) ∨ (∃ t, c = a ++ x :: t ∧ b = t ++ x :: d) ∨
        ∃ t, a = c ++ x :: t ∧ d = t ++ x :: b := by
  rw [List.append_eq_append_iff]
  constructor
  · rintro (⟨t, rfl, hb⟩ | ⟨t, rfl, hd⟩)
    · cases t with
      | nil => exact .inl ⟨by simp, by simpa using hb⟩
      | cons y t =>
        obtain ⟨rfl, rfl⟩ := List.cons.inj hb
        exact .inr (.inl ⟨t, rfl, rfl⟩)
    · cases t with
      | nil => exact .inl ⟨by simp, by simpa using hd.symm⟩
      | cons y t =>
        obtain ⟨rfl, rfl⟩ := List.cons.inj hd
        exact .inr (.inr ⟨t, rfl, rfl⟩)
  · rintro (⟨rfl, rfl⟩ | ⟨t, rfl, rfl⟩ | ⟨t, rfl, rfl⟩)
    · exact .inl ⟨[], by simp, rfl⟩
    · exact .inl ⟨x :: t, rfl, rfl⟩
    · exact .inr ⟨x :: t, rfl, rfl⟩

private theorem straddles_iff {f n g m : String} :
    Straddles f n g m ↔
      ∃ t, g.toList = f.toList ++ '$' :: t ∧ n.toList = t ++ '$' :: m.toList := by
  constructor
  · rintro ⟨t, rfl, rfl⟩
    exact ⟨t.toList, by simp, by simp⟩
  · rintro ⟨t, hg, hn⟩
    refine ⟨String.ofList t, String.toList_inj.1 ?_, String.toList_inj.1 ?_⟩
    · simp [hg]
    · simp [hn]

/-- Labels of two functions stand for the same symbol when one pair of names straddles the other,
and otherwise only if the names are the same. -/
private theorem symbolIn_eq_iff {f n g m : String} :
    symbolIn (some f) n = symbolIn (some g) m ↔
      (f = g ∧ n = m) ∨ Straddles f n g m ∨ Straddles g m f n := by
  have hs (f n : String) : (symbolIn (some f) n).toList = f.toList ++ '$' :: n.toList := by
    simp [symbolIn]
  rw [← String.toList_inj, hs, hs, append_cons_eq_append_cons_iff, straddles_iff, straddles_iff,
    String.toList_inj, String.toList_inj]

/-- The longer label has a dollar sign. -/
private theorem Straddles.mem_toList {f n g m : String} (h : Straddles f n g m) :
    '$' ∈ n.toList := by
  obtain ⟨t, -, hn⟩ := straddles_iff.1 h
  simp [hn]

private theorem Straddles.length_lt {f n g m : String} (h : Straddles f n g m) :
    f.length < g.length ∧ m.length < n.length := by
  obtain ⟨t, rfl, rfl⟩ := h
  simp only [String.length_append]
  have hmark : "$".length = 1 := rfl
  omega

/-- The two functions are different. -/
private theorem Straddles.ne {f n g m : String} (h : Straddles f n g m) : f ≠ g := by
  rintro rfl
  exact Nat.lt_irrefl _ h.length_lt.1

/-- So are the two labels: functions may share the names of their labels. -/
private theorem Straddles.label_ne {f n g m : String} (h : Straddles f n g m) : n ≠ m := by
  rintro rfl
  exact Nat.lt_irrefl _ h.length_lt.2

/-- How the function around a command comes about: from the command before it, or none is around
it because it begins a unit. -/
private def Succeeds (r s : Site) : Prop := s.body = none ∨ s.body = r.command.entered?.or r.body

private theorem isChain_sitesBehind (unit : String) (before ls : List Located) :
    (sitesBehind unit before ls).IsChain Succeeds := by
  induction ls generalizing before with
  | nil => exact .nil
  | cons l ls ih =>
    rw [sitesBehind_cons, List.isChain_cons]
    refine ⟨fun s hs => .inr ?_, ih (before ++ [l])⟩
    cases ls with
    | nil => cases hs
    | cons m ms =>
      rw [sitesBehind_cons, List.head?_cons, Option.mem_some] at hs
      rw [← hs]
      exact enclosing_concat before l

private theorem body_of_mem_head? {us : List SourceUnit} {s : Site}
    (h : s ∈ (us.flatMap SourceUnit.sites).head?) : s.body = none := by
  induction us with
  | nil => cases h
  | cons u us ih =>
    rw [List.flatMap_cons, List.head?_append, Option.mem_def, Option.or_eq_some_iff] at h
    rcases h with h | ⟨-, h⟩
    · cases hc : u.commands with
      | nil => simp [SourceUnit.sites, sitesBehind, hc] at h
      | cons l ls =>
        rw [SourceUnit.sites, hc, sitesBehind_cons, List.head?_cons] at h
        rw [← Option.some.inj h]
        rfl
    · exact ih h

private theorem isChain_sites (p : Program) : p.sites.IsChain Succeeds := by
  rw [Program.sites]
  induction p.units with
  | nil => exact .nil
  | cons u us ih =>
    rw [List.flatMap_cons, List.isChain_append]
    exact ⟨isChain_sitesBehind u.name [] u.commands, ih,
      fun _ _ s hs => .inl (body_of_mem_head? hs)⟩

/-- The command at place `i` is in the body of `f`, which the function at place `k` begins: no
function and no unit begins in between. -/
structure InBody (sites : List Site) (f : String) (k i : Nat) : Prop where
  lt : k < i
  entry : ∃ s, sites[k]? = some s ∧ s.command.entered? = some f
  between : ∀ j s, k < j → j ≤ i → sites[j]? = some s →
    s.command.entered? = none ∧ s.body = some f

/-- A command with a function around it is in a body of that function. -/
private theorem exists_inBody {p : Program} {i : Nat} {s : Site} {f : String}
    (hs : p.sites[i]? = some s) (he : s.command.entered? = none) (hf : s.body = some f) :
    ∃ k, InBody p.sites f k i := by
  induction i generalizing s with
  | zero =>
    rw [← List.head?_eq_getElem?] at hs
    rw [body_of_mem_head? hs] at hf
    cases hf
  | succ i ih =>
    obtain ⟨hi, rfl⟩ := List.getElem?_eq_some_iff.1 hs
    have hr : p.sites[i]? = some p.sites[i] := List.getElem?_eq_getElem _
    have here : ∀ r, p.sites[i + 1]? = some r → r.command.entered? = none ∧ r.body = some f := by
      intro r hr
      rw [← Option.some.inj (hs.symm.trans hr)]
      exact ⟨he, hf⟩
    rcases List.isChain_iff_getElem.1 (isChain_sites p) i hi with hb | hb
    · rw [hb] at hf
      cases hf
    · rw [hf] at hb
      rcases Option.or_eq_some_iff.1 hb.symm with hentered | ⟨hpassed, hbody⟩
      · refine ⟨i, i.lt_succ_self, ⟨_, hr, hentered⟩, fun j r hj hji hjr => ?_⟩
        obtain rfl : j = i + 1 := by omega
        exact here r hjr
      · obtain ⟨k, hk⟩ := ih hr hpassed hbody
        refine ⟨k, by have := hk.lt; omega, hk.entry, fun j r hj hji hjr => ?_⟩
        rcases Nat.lt_or_eq_of_le hji with hlt | rfl
        · exact hk.between j r hj (by omega) hjr
        · exact here r hjr

/-- In an accepted program no two commands define the same symbol. -/
private theorem Acceptable.eq_of_definition? {sites : List Site} (h : Acceptable sites) {i j : Nat}
    {s r : Site} {symbol : String} (hs : sites[i]? = some s) (hr : sites[j]? = some r)
    (hsd : s.definition? = some symbol) (hrd : r.definition? = some symbol) : i = j := by
  have hp := List.pairwise_filterMap.1 h.distinct
  rw [List.pairwise_iff_getElem] at hp
  obtain ⟨hi, rfl⟩ := List.getElem?_eq_some_iff.1 hs
  obtain ⟨hj, rfl⟩ := List.getElem?_eq_some_iff.1 hr
  rcases Nat.lt_trichotomy i j with hlt | heq | hlt
  · exact absurd rfl (hp i j hi hj hlt symbol hsd symbol hrd)
  · exact heq
  · exact absurd rfl (hp j i hj hi hlt symbol hrd symbol hsd)

/-- All commands of a function are in the same body. -/
private theorem Acceptable.eq_of_inBody {sites : List Site} (h : Acceptable sites) {f : String}
    {k l i j : Nat} (hi : InBody sites f k i) (hj : InBody sites f l j) : k = l := by
  obtain ⟨s, hs, hsf⟩ := hi.entry
  obtain ⟨r, hr, hrf⟩ := hj.entry
  exact h.eq_of_definition? hs hr (Command.definition?_of_entered? hsf)
    (Command.definition?_of_entered? hrf)

/-- Labels of two functions stand for the same symbol only if their names straddle, and just then
is the later one refused as a duplicate of the earlier one. -/
private theorem collide_iff {d l : Site} {f n g m : String} (hfg : f ≠ g) (hdf : d.body = some f)
    (hdn : d.command = .label n) (hlg : l.body = some g) (hlm : l.command = .label m)
    (hm : isSymbol m = true) :
    (d.definition? = l.definition? ↔ Straddles f n g m ∨ Straddles g m f n) ∧
      (l.refusal? [d] = some (.duplicateLabel (symbolIn (some g) m)) ↔
        Straddles f n g m ∨ Straddles g m f n) := by
  have hiff : symbolIn (some f) n = symbolIn (some g) m ↔
      Straddles f n g m ∨ Straddles g m f n := by
    rw [symbolIn_eq_iff]
    exact or_iff_right fun hfn => hfg hfn.1
  have hd : d.definition? = some (symbolIn (some f) n) := by rw [Site.definition?, hdn, hdf]; rfl
  have hl : l.command.definition? l.body = some (symbolIn (some g) m) := by rw [hlm, hlg]; rfl
  have ho : l.command.offence? l.body = none := by
    rw [hlm, hlg]
    exact (Command.offence?_label (.inl rfl)).2 ⟨hm, fun hn => (by cases hn)⟩
  refine ⟨?_, ?_⟩
  · rw [hd, Site.definition?, hl]
    exact Option.some_inj.trans hiff
  · rw [Site.refusal?, Command.refusal?, ho, hl, definitions_singleton, hd, ← hiff]
    simp [eq_comm]

/-- A jump in a function comes to labels of its body, unless the names straddle. -/
private theorem target_cases {p : Program} (ha : Acceptable p.sites) {i j : Nat} {s l : Site}
    {f n m : String} (hs : p.sites[i]? = some s) (hl : p.sites[j]? = some l)
    (hsf : s.body = some f) (hsn : s.command = .goto n ∨ s.command = .ifGoto n)
    (hlm : l.command = .label m) (hd : l.definition? = s.target?) :
    (m = n ∧ ∃ k, InBody p.sites f k i ∧ InBody p.sites f k j) ∨
      (l.body = none ∧ m = symbolIn (some f) n) ∨
      ∃ g, l.body = some g ∧ g ≠ f ∧ (Straddles f n g m ∨ Straddles g m f n) := by
  have hse : s.command.entered? = none := by rcases hsn with hsn | hsn <;> rw [hsn] <;> rfl
  have ht : s.target? = some (symbolIn (some f) n) := by
    rw [Site.target?, hsf]
    rcases hsn with hsn | hsn <;> rw [hsn] <;> rfl
  have he : symbolIn l.body m = symbolIn (some f) n := by
    rw [ht, Site.definition?, hlm] at hd
    exact Option.some.inj hd
  cases hb : l.body with
  | none =>
    rw [hb] at he
    exact .inr (.inl ⟨rfl, he⟩)
  | some g =>
    rw [hb] at he
    rcases symbolIn_eq_iff.1 he with ⟨rfl, hmn⟩ | hgf | hfg
    · obtain ⟨k, hk⟩ := exists_inBody hs hse hsf
      obtain ⟨k', hk'⟩ := exists_inBody hl (by rw [hlm]; rfl) hb
      obtain rfl := ha.eq_of_inBody hk hk'
      exact .inl ⟨hmn, k, hk, hk'⟩
    · exact .inr (.inr ⟨g, rfl, hgf.ne, .inr hgf⟩)
    · exact .inr (.inr ⟨g, rfl, hfg.ne.symm, .inl hfg⟩)

namespace Program
variable {p : Program} {o : LoweringOptions} {lines : List Assembly.Line}

/-- A jump inside a function of an accepted program comes to labels of that function only, except
for names that straddle: the label is then bare, or one of another function, and has the same
spelling behind the other function's name. Two labels of different functions are refused as
duplicates in that case and in no other, so never when no label has a dollar sign and never when
they have the same name. -/
theorem jump_stays_in_body (h : p.lower o = .ok lines) :
    (∀ i j s l f n m, p.sites[i]? = some s → p.sites[j]? = some l → s.body = some f →
      s.command = .goto n ∨ s.command = .ifGoto n → l.command = .label m →
      l.definition? = s.target? →
        (m = n ∧ ∃ k, InBody p.sites f k i ∧ InBody p.sites f k j) ∨
          (l.body = none ∧ m = symbolIn (some f) n) ∨
          ∃ g, l.body = some g ∧ g ≠ f ∧ (Straddles f n g m ∨ Straddles g m f n)) ∧
      (∀ (d l : Site) (f n g m : String), f ≠ g → d.body = some f → d.command = .label n →
        l.body = some g → l.command = .label m → isSymbol m = true →
          (d.definition? = l.definition? ↔ Straddles f n g m ∨ Straddles g m f n) ∧
          (l.refusal? [d] = some (.duplicateLabel (symbolIn (some g) m)) ↔
            Straddles f n g m ∨ Straddles g m f n)) ∧
      ∀ f n g m : String, Straddles f n g m → '$' ∈ n.toList ∧ n ≠ m := by
  obtain ⟨ha, -⟩ := lower_eq_ok_iff.1 h
  refine ⟨?_, ?_, fun f n g m h => ⟨h.mem_toList, h.label_ne⟩⟩
  · intro i j s l f n m hs hl hsf hsn hlm hd
    exact target_cases ha hs hl hsf hsn hlm hd
  · intro d l f n g m hfg hdf hdn hlg hlm hm
    exact collide_iff hfg hdf hdn hlg hlm hm

end Program

def twoLoops : Program :=
  ⟨[⟨"A", [⟨1, "function f 0", .function "f" 0⟩, ⟨2, "label L", .label "L"⟩,
      ⟨3, "goto L", .goto "L"⟩]⟩,
    ⟨"B", [⟨1, "function g 0", .function "g" 0⟩, ⟨2, "label L", .label "L"⟩,
      ⟨3, "goto L", .goto "L"⟩]⟩]⟩

/-- The second jump stays in the second function. -/
theorem twoLoops_stay_apart : (∃ lines, twoLoops.lower ⟨false, false⟩ = .ok lines) ∧
    ∃ k, InBody twoLoops.sites "g" k 5 ∧ InBody twoLoops.sites "g" k 4 := by
  have ha : Acceptable twoLoops.sites := firstRefusal?_nil_eq_none_iff.1 (by decide)
  have h : twoLoops.lower ⟨false, false⟩ = .ok _ := Program.lower_eq_ok_iff.2 ⟨ha, rfl⟩
  obtain ⟨hjump, -, hmark⟩ := Program.jump_stays_in_body h
  refine ⟨⟨_, h⟩, ?_⟩
  rcases hjump 5 4 _ _ "g" "L" "L" rfl rfl rfl (.inl rfl) rfl rfl with
    ⟨-, hk⟩ | ⟨hb, -⟩ | ⟨f, -, -, hs | hs⟩
  · exact hk
  · cases hb
  · exact absurd rfl (hmark _ _ _ _ hs).2
  · exact absurd rfl (hmark _ _ _ _ hs).2

/-- A jump and a label in functions whose names begin with the same letter. -/
def straddling (first : String → Command) : Program :=
  ⟨[⟨"Main", [⟨1, "", .function "a" 0⟩, ⟨2, "", first "b$c"⟩, ⟨3, "", .function "a$b" 0⟩,
    ⟨4, "", .label "c"⟩]⟩]⟩

/-- A jump in the one function comes to the label of the other, and a label in its place is what the
other label is refused for. -/
theorem straddling_leaves_body :
    (∃ lines, (straddling .goto).lower ⟨false, false⟩ = .ok lines) ∧
      (∃ s l, (straddling .goto).sites[1]? = some s ∧ (straddling .goto).sites[3]? = some l ∧
        s.body = some "a" ∧ s.command = .goto "b$c" ∧ l.body = some "a$b" ∧
        l.command = .label "c" ∧ l.definition? = s.target?) ∧
      (straddling .label).lower ⟨false, false⟩ =
        .error ⟨"Main", 4, "label c", .duplicateLabel "a$b$c"⟩ := by
  have ha : Acceptable (straddling .goto).sites := firstRefusal?_nil_eq_none_iff.1 (by decide)
  have h : (straddling .goto).lower ⟨false, false⟩ = .ok _ := Program.lower_eq_ok_iff.2 ⟨ha, rfl⟩
  refine ⟨⟨_, h⟩, ⟨_, _, rfl, rfl, rfl, rfl, rfl, rfl, by decide⟩, ?_⟩
  exact Program.lower_of_refused (s := ⟨"Main", some "a$b", ⟨4, "", .label "c"⟩⟩) (by decide)

end StackLowering
