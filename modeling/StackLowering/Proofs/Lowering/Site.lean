import StackLowering.Lowering.Basic
import StackLowering.Proofs.Lowering.Command
/-! The commands of a program, each with what its place decides: the unit, and the function whose
body it stands in. Nothing here is carried from command to command, and the output of a lowering
is read off the list. -/
namespace StackLowering
open Assembly

def enclosing (before : List Located) : Option String :=
  (before.filterMap (·.command.entered?)).getLast?

structure Site where
  unit : String
  /-- The function around the command, which started last before it in its unit. -/
  body : Option String
  located : Located
  deriving DecidableEq

namespace Site

def command (s : Site) : Command := s.located.command

def definition? (s : Site) : Option String := s.command.definition? s.body

def target? (s : Site) : Option String := s.command.target? s.body

def issues (s : Site) : Nat := if s.command.labelKinds = [] then 0 else 1

def code (annotate : Bool) (number : Nat) (s : Site) : List Line :=
  (if annotate then [.comment s.located.text] else []) ++ s.command.block s.unit s.body number

/-- The command as it is rejected: with its own text where the source line is missing. -/
def reject (s : Site) (refusal : Refusal) : Rejection :=
  let text := if s.located.text.isEmpty then s.command.text else s.located.text
  ⟨s.unit, s.located.line, text, refusal⟩

end Site

def definitions (sites : List Site) : List String := sites.filterMap Site.definition?

def issued : List Site → Nat
  | [] => 0
  | s :: sites => s.issues + issued sites

/-- The lines of commands; numbers of generated labels go up from the given one. -/
def output (annotate : Bool) (number : Nat) : List Site → List Line
  | [] => []
  | s :: sites => s.code annotate number ++ output annotate (number + s.issues) sites

def LoweringOptions.preamble (o : LoweringOptions) : List Line :=
  if o.bootstrap then
    (if o.annotate then [.comment "bootstrap"] else []) ++ Block.bootstrap 0
  else []

def LoweringOptions.firstNumber (o : LoweringOptions) : Nat := if o.bootstrap then 1 else 0

/-- Commands of a unit behind others of it. -/
def sitesBehind (unit : String) (before : List Located) (ls : List Located) : List Site :=
  ls.mapIdx fun i l => ⟨unit, enclosing (before ++ ls.take i), l⟩

def SourceUnit.sites (u : SourceUnit) : List Site := sitesBehind u.name [] u.commands

def Program.sites (p : Program) : List Site := p.units.flatMap SourceUnit.sites

theorem definitions_append (first second : List Site) :
    definitions (first ++ second) = definitions first ++ definitions second :=
  List.filterMap_append

theorem definitions_singleton (s : Site) : definitions [s] = s.definition?.toList := by
  rw [definitions, List.filterMap_cons]
  cases s.definition? <;> rfl

private theorem issued_append (first second : List Site) :
    issued (first ++ second) = issued first + issued second := by
  induction first with
  | nil => rw [List.nil_append, issued, Nat.zero_add]
  | cons s sites ih => rw [List.cons_append, issued, issued, ih, Nat.add_assoc]

theorem output_append (annotate : Bool) (number : Nat) (first second : List Site) :
    output annotate number (first ++ second) =
      output annotate number first ++ output annotate (number + issued first) second := by
  induction first generalizing number with
  | nil => rfl
  | cons s sites ih =>
    rw [List.cons_append, output, output, ih, List.append_assoc, issued, Nat.add_assoc]

theorem sitesBehind_cons (unit : String) (before : List Located) (l : Located)
    (ls : List Located) :
    sitesBehind unit before (l :: ls) =
      ⟨unit, enclosing before, l⟩ :: sitesBehind unit (before ++ [l]) ls := by
  simp [sitesBehind, List.mapIdx_cons]

theorem sitesBehind_append (unit : String) (before first second : List Located) :
    sitesBehind unit before (first ++ second) =
      sitesBehind unit before first ++ sitesBehind unit (before ++ first) second := by
  induction first generalizing before with
  | nil => simp [sitesBehind]
  | cons l first ih =>
    rw [List.cons_append, sitesBehind_cons, sitesBehind_cons, ih, List.append_assoc,
      List.singleton_append, List.cons_append]

theorem enclosing_concat (before : List Located) (l : Located) :
    enclosing (before ++ [l]) = l.command.entered?.or (enclosing before) := by
  rw [enclosing, List.filterMap_append]
  cases h : l.command.entered? <;> simp [enclosing, h]

theorem SourceUnit.exists_site {u : SourceUnit} {l : Located} (hl : l ∈ u.commands) :
    ∃ s ∈ u.sites, s.located = l := by
  obtain ⟨i, hi, rfl⟩ := List.mem_iff_getElem.1 hl
  exact ⟨_, List.mem_mapIdx.2 ⟨i, hi, rfl⟩, rfl⟩

/-- The function around a command is one that a command of the program starts. -/
theorem Program.exists_entered (p : Program) {s : Site} (hs : s ∈ p.sites) {f : String}
    (hf : s.body = some f) : ∃ r ∈ p.sites, r.command.entered? = some f := by
  obtain ⟨u, hu, hs⟩ := List.mem_flatMap.1 hs
  obtain ⟨i, hi, rfl⟩ := List.mem_mapIdx.1 hs
  obtain ⟨l, hl, he⟩ := List.mem_filterMap.1 (List.mem_of_getLast? hf)
  obtain ⟨r, hr, rfl⟩ := u.exists_site (List.mem_of_mem_take hl)
  exact ⟨r, List.mem_flatMap.2 ⟨u, hu, hr⟩, he⟩

def Site.refusal? (earlier : List Site) (s : Site) : Option Refusal :=
  s.command.refusal? s.body fun symbol => decide (symbol ∈ definitions earlier)

/-- The first refused command behind others, and why it is refused. -/
def firstRefusal? (earlier : List Site) : List Site → Option (Site × Refusal)
  | [] => none
  | s :: sites =>
    match s.refusal? earlier with
    | some refusal => some (s, refusal)
    | none => firstRefusal? (earlier ++ [s]) sites

private theorem firstRefusal?_append (earlier first second : List Site) :
    firstRefusal? earlier (first ++ second) =
      (firstRefusal? earlier first).or (firstRefusal? (earlier ++ first) second) := by
  induction first generalizing earlier with
  | nil => simp [firstRefusal?]
  | cons s sites ih =>
    rw [List.cons_append, firstRefusal?, firstRefusal?]
    split
    · rfl
    · rw [ih, List.append_assoc, List.singleton_append]

namespace Lowering

def site (t : Lowering) (l : Located) : Site := ⟨t.scope.unit, t.scope.function, l⟩

def accept (t : Lowering) (l : Located) : Lowering :=
  t.extend (t.scope.behind l.command) ((t.site l).code t.annotate t.scope.issued)

private theorem issued_accept (t : Lowering) (l : Located) :
    (t.accept l).scope.issued = t.scope.issued + (t.site l).issues := by
  by_cases hk : l.command.labelKinds = [] <;>
    simp [accept, extend, Scope.behind, Site.issues, Site.command, site, hk]

private theorem function_accept {t : Lowering} {before : List Located} {l : Located}
    (hb : t.scope.function = enclosing before) :
    (t.accept l).scope.function = enclosing (before ++ [l]) := by
  rw [enclosing_concat, ← hb]
  rfl

/-- A lowering that has accepted some commands, with `start` numbers of labels taken before. -/
structure Follows (start : Nat) (earlier : List Site) (t : Lowering) : Prop where
  sound : t.scope.Sound
  contains : ∀ symbol, t.scope.defined.contains symbol = decide (symbol ∈ definitions earlier)
  issued : t.scope.issued = start + issued earlier

namespace Follows
variable {start : Nat} {earlier : List Site} {t : Lowering}

private theorem beginUnit (h : t.Follows start earlier) (name : String) :
    (t.beginUnit name).Follows start earlier :=
  ⟨fun _ hf => (by cases hf), h.contains, h.issued⟩

private theorem lower (h : t.Follows start earlier) (l : Located) :
    t.scope.lower l.command =
      match (t.site l).refusal? earlier with
      | some refusal => .error refusal
      | none => .ok (t.scope.behind l.command,
          l.command.block t.scope.unit t.scope.function t.scope.issued) := by
  have hl := Scope.lower_eq h.sound l.command
  rw [funext h.contains] at hl
  exact hl

/-- A refused command changes nothing and is rejected as its place says. -/
private theorem located_of_refused (h : t.Follows start earlier) {l : Located} {refusal : Refusal}
    (hr : (t.site l).refusal? earlier = some refusal) :
    t.located l = (t, some ((t.site l).reject refusal)) := by
  rw [Lowering.located, h.lower, hr]
  rfl

/-- An accepted command is followed by its lines. -/
private theorem located_of_accepted (h : t.Follows start earlier) {l : Located}
    (hr : (t.site l).refusal? earlier = none) :
    t.located l = (t.accept l, none) ∧ (t.accept l).Follows start (earlier ++ [t.site l]) := by
  refine ⟨by rw [Lowering.located, h.lower, hr]; rfl, ?_, ?_, ?_⟩
  · exact h.sound.behind (Option.or_eq_none_iff.1 hr).1
  · intro symbol
    have hd := h.contains symbol
    rw [Bool.eq_iff_iff, decide_eq_true_iff, Std.TreeSet.contains_iff_mem] at hd ⊢
    rw [definitions_append, List.mem_append, ← hd]
    refine Scope.mem_behind_defined.trans (or_comm.trans (or_congr_right ?_))
    simp [definitions, Site.definition?, Site.command, site, eq_comm]
  · rw [issued_append, ← Nat.add_assoc, ← h.issued]
    exact issued_accept t l

/-- Commands up to a refused one, whose rejection ends them. -/
private theorem commands_of_refused (h : t.Follows start earlier) {before ls : List Located}
    (hb : t.scope.function = enclosing before) {s : Site} {refusal : Refusal}
    (hr : firstRefusal? earlier (sitesBehind t.scope.unit before ls) = some (s, refusal)) :
    (t.commands ls).2 = some (s.reject refusal) := by
  induction ls generalizing t earlier before with
  | nil => cases hr
  | cons l ls ih =>
    rw [sitesBehind_cons, ← hb, firstRefusal?] at hr
    split at hr
    · next r hl =>
      obtain ⟨rfl, rfl⟩ := Prod.mk.inj (Option.some.inj hr)
      rw [Lowering.commands, h.located_of_refused hl]
      rfl
    · next hl =>
      obtain ⟨he, ha⟩ := h.located_of_accepted hl
      rw [Lowering.commands, he]
      exact ih ha (function_accept hb) hr

/-- Commands none of which is refused. -/
private theorem commands_of_accepted (h : t.Follows start earlier) {before ls : List Located}
    (hb : t.scope.function = enclosing before)
    (hr : firstRefusal? earlier (sitesBehind t.scope.unit before ls) = none) :
    ∃ u, t.commands ls = (u, none) ∧
      u.Follows start (earlier ++ sitesBehind t.scope.unit before ls) ∧
      u.annotate = t.annotate ∧
      u.lines.toList = t.lines.toList ++
        output t.annotate t.scope.issued (sitesBehind t.scope.unit before ls) := by
  induction ls generalizing t earlier before with
  | nil => exact ⟨t, rfl, by simpa [sitesBehind] using h, rfl, by simp [sitesBehind, output]⟩
  | cons l ls ih =>
    rw [sitesBehind_cons, ← hb, firstRefusal?] at hr
    split at hr
    · cases hr
    · next hl =>
      obtain ⟨he, ha⟩ := h.located_of_accepted hl
      obtain ⟨u, hu, hf, hn, ho⟩ := ih ha (function_accept hb) hr
      refine ⟨u, ?_, ?_, hn, ?_⟩
      · rw [Lowering.commands, he]
        exact hu
      · rw [sitesBehind_cons, ← hb, ← List.singleton_append, ← List.append_assoc]
        exact hf
      · rw [ho, issued_accept, accept, toList_lines_extend, sitesBehind_cons, ← hb, output,
          List.append_assoc]
        rfl

/-- Units up to the first refused command. -/
private theorem units_of_refused (h : t.Follows start earlier) {us : List SourceUnit} {s : Site}
    {refusal : Refusal}
    (hr : firstRefusal? earlier (us.flatMap SourceUnit.sites) = some (s, refusal)) :
    (t.units us).2 = some (s.reject refusal) := by
  induction us generalizing t earlier with
  | nil => cases hr
  | cons u us ih =>
    have hu := h.beginUnit u.name
    rw [List.flatMap_cons, firstRefusal?_append] at hr
    rw [Lowering.units, unit]
    rcases Option.or_eq_some_iff.1 hr with hc | ⟨hc, hr⟩
    · have hs := hu.commands_of_refused rfl hc
      cases hp : (t.beginUnit u.name).commands u.commands with
      | mk v r =>
        rw [hp] at hs
        rw [show r = _ from hs]
    · obtain ⟨v, hv, hf, -, -⟩ := hu.commands_of_accepted rfl hc
      rw [hv]
      exact ih hf hr

/-- Units none of whose commands is refused. -/
private theorem units_of_accepted (h : t.Follows start earlier) {us : List SourceUnit}
    (hr : firstRefusal? earlier (us.flatMap SourceUnit.sites) = none) :
    ∃ u, t.units us = (u, none) ∧ u.Follows start (earlier ++ us.flatMap SourceUnit.sites) ∧
      u.lines.toList = t.lines.toList ++
        output t.annotate t.scope.issued (us.flatMap SourceUnit.sites) := by
  induction us generalizing t earlier with
  | nil => exact ⟨t, rfl, by simpa using h, by simp [output]⟩
  | cons u us ih =>
    have hu := h.beginUnit u.name
    rw [List.flatMap_cons, firstRefusal?_append, Option.or_eq_none_iff] at hr
    obtain ⟨v, hv, hf, hn, ho⟩ := hu.commands_of_accepted rfl hr.1
    obtain ⟨w, hw, hg, hl⟩ := ih hf hr.2
    refine ⟨w, ?_, ?_, ?_⟩
    · rw [Lowering.units, unit, hv]
      exact hw
    · rw [List.flatMap_cons, ← List.append_assoc]
      exact hg
    · rw [hl, ho, hn, List.flatMap_cons, output_append, hf.issued, issued_append,
        ← Nat.add_assoc, ← h.issued, List.append_assoc]
      rfl

end Follows

def started (o : LoweringOptions) : Lowering :=
  let t := if o.annotate then initial.withAnnotations else initial
  if o.bootstrap then t.bootstrap else t

private theorem follows_started (o : LoweringOptions) : (started o).Follows o.firstNumber [] := by
  obtain ⟨_ | _, _ | _⟩ := o <;> exact ⟨fun _ hf => (by cases hf), fun _ => rfl, rfl⟩

private theorem annotate_started (o : LoweringOptions) : (started o).annotate = o.annotate := by
  obtain ⟨_ | _, _ | _⟩ := o <;> rfl

private theorem lines_started (o : LoweringOptions) : (started o).lines.toList = o.preamble := by
  obtain ⟨_ | _, _ | _⟩ := o <;> rfl

end Lowering

namespace Program
variable {p : Program} {o : LoweringOptions}

/-- A program is rejected with what ends the lowering of its units. -/
theorem lower_eq (p : Program) (o : LoweringOptions) :
    p.lower o =
      ((Lowering.started o).units p.units).2.elim
        (.ok ((Lowering.started o).units p.units).1.lines.toList) .error := by
  simp only [lower, Lowering.started]
  generalize Lowering.units _ _ = r
  obtain ⟨t, _ | rejection⟩ := r <;> rfl

/-- A program none of whose commands is refused is lowered to their lines. -/
theorem lower_of_accepted (hr : firstRefusal? [] p.sites = none) :
    p.lower o = .ok (o.preamble ++ output o.annotate o.firstNumber p.sites) := by
  have h := Lowering.follows_started o
  obtain ⟨u, hu, -, ho⟩ := h.units_of_accepted hr
  rw [lower_eq, hu, Option.elim_none, ho, Lowering.annotate_started, Lowering.lines_started,
    h.issued]
  rfl

def issued (p : Program) (o : LoweringOptions) : Nat :=
  ((Lowering.started o).units p.units).1.scope.issued

theorem issued_of_accepted (hr : firstRefusal? [] p.sites = none) :
    p.issued o = o.firstNumber + StackLowering.issued p.sites := by
  obtain ⟨u, hu, hf, -⟩ := (Lowering.follows_started o).units_of_accepted hr
  rw [issued, hu]
  exact hf.issued

/-- The first refused command of a program is rejected. -/
theorem lower_of_refused {s : Site} {refusal : Refusal}
    (hr : firstRefusal? [] p.sites = some (s, refusal)) :
    p.lower o = .error (s.reject refusal) := by
  rw [lower_eq, (Lowering.follows_started o).units_of_refused hr, Option.elim_some]

end Program

end StackLowering
