import StackLowering.Proofs.Machine.Capture
import StackLowering.Proofs.Program.OutputText
/-! Listings of the output. Their addresses are those of code memory, as the assembler gives them to
the labels and as instructions are counted. -/
namespace StackLowering
open Assembly

namespace Assembly
open Listing

namespace Listing

def entriesFrom (targets : Std.TreeSet String) (address : Nat) : List String → List String
  | [] => []
  | line :: lines =>
    entry targets address line ++ entriesFrom targets (addressAfter address line) lines

private theorem foldl_step (targets : Std.TreeSet String) (lines : List String) (s : State) :
    lines.foldl (State.step targets) s =
      ⟨lines.foldl addressAfter s.address, s.listed ++ entriesFrom targets s.address lines⟩ := by
  induction lines generalizing s with
  | nil => simp [entriesFrom]
  | cons line lines ih =>
    rw [List.foldl_cons, ih, State.step, entriesFrom, List.foldl_cons]
    congr 1
    apply Array.toList_inj.1
    simp

theorem listing_eq (lines : List String) :
    listing lines = entriesFrom (jumpTargets lines) 0 lines := by
  rw [listing, foldl_step]
  simp

end Listing

namespace Line
variable {targets : Std.TreeSet String}

def isMarked (targets : Std.TreeSet String) (line : Line) : Bool :=
  line.definition?.any fun l => targets.contains l.text

/-- What a listing shows in front of a line at an address; a comment has none. -/
def front (targets : Std.TreeSet String) (address : Nat) : Line → String
  | define l => Text.zeroPadded 4 address ++ if targets.contains l.text then " ► " else "   "
  | comment _ => "       "
  | .address _ | literal _ | compute _ => Text.zeroPadded 4 address ++ "     "

private theorem addressAfter_text (line : Line) (n : Nat) :
    addressAfter n line.text = n + line.size := by
  rw [addressAfter, definition?_text, isComment_text]
  cases line <;> rfl

/-- A label that is jumped to is set off by a line of its own. -/
private theorem entry_text (targets : Std.TreeSet String) (n : Nat) (line : Line) :
    entry targets n line.text =
      (if line.isMarked targets then [separator] else []) ++
        [line.front targets n ++ line.text] := by
  rw [entry, definition?_text, isComment_text]
  cases line with
  | define l =>
    by_cases hm : targets.contains l.text = true
    · simp only [definition?, Option.map_some, isMarked, Option.any_some, front, hm, if_true,
        String.append_assoc]
      rfl
    · simp only [definition?, Option.map_some, isMarked, Option.any_some, front, hm,
        String.append_assoc]
      rfl
  | _ => rfl

/-- The separator begins with blanks, and has a corner where a comment has one more. -/
private theorem front_append_ne_separator (line : Line) (n : Nat) (text : String) :
    line.front targets n ++ text ≠ separator := by
  have padded (back : String) : Text.zeroPadded 4 n ++ back ≠ separator := by
    intro h
    have hd := Text.isDecimal_zeroPadded 4 n
    have hs := congrArg String.toList h
    rw [String.toList_append] at hs
    cases hz : (Text.zeroPadded 4 n).toList with
    | nil => simp [Text.isDecimal, hz] at hd
    | cons c cs =>
      rw [hz] at hs
      obtain rfl : c = ' ' := (List.cons.inj hs).1
      simp [Text.isDecimal, hz] at hd
  cases line with
  | comment t =>
    intro h
    have hc := congrArg (fun s => s.toList[6]?) h
    simp [front, separator] at hc
  | _ =>
    rw [front, String.append_assoc]
    exact padded _

end Line

section Listed
variable (targets : Std.TreeSet String)

private theorem foldl_addressAfter_text (lines : List Line) (n : Nat) :
    (lines.map Line.text).foldl addressAfter n = n + codeSize lines := by
  induction lines generalizing n with
  | nil => rfl
  | cons line lines ih =>
    rw [List.map_cons, List.foldl_cons, Line.addressAfter_text, ih, codeSize, Nat.add_assoc]

/-- Without separators every line is listed once, behind the size of the lines in front of it. -/
theorem filter_entriesFrom (lines : List Line) (n : Nat) :
    (entriesFrom targets n (lines.map Line.text)).filter (· ≠ separator) =
      lines.mapIdx fun k line =>
        line.front targets (n + codeSize (lines.take k)) ++ line.text := by
  induction lines generalizing n with
  | nil => rfl
  | cons line lines ih =>
    rw [List.map_cons, entriesFrom, Line.entry_text, Line.addressAfter_text, List.filter_append,
      ih, List.mapIdx_cons, List.filter_append]
    have hs : (if line.isMarked targets then [separator] else []).filter (· ≠ separator) = [] := by
      split <;> simp
    have hf : [line.front targets n ++ line.text].filter (· ≠ separator) =
        [line.front targets n ++ line.text] := by
      simp [Line.front_append_ne_separator]
    rw [hs, hf]
    simp [codeSize, Nat.add_assoc]

/-- The separators are one for each label that is jumped to. -/
private theorem length_entriesFrom (lines : List Line) (n : Nat) :
    (entriesFrom targets n (lines.map Line.text)).length =
      lines.length + lines.countP (Line.isMarked targets) := by
  induction lines generalizing n with
  | nil => rfl
  | cons line lines ih =>
    rw [List.map_cons, entriesFrom, Line.entry_text, List.length_append, ih, List.countP_cons]
    cases line.isMarked targets <;> simp <;> omega

end Listed

end Assembly

section Addresses
variable {p : Program} {o : LoweringOptions} {lines : List Line}

/-- The address of a label is the number of instructions in front of it. -/
private theorem lookup_define (h : p.lower o = .ok lines) {found : List (String × Nat)}
    (hf : ∀ name, found.lookup name = labelAddress? name lines) {k : Nat} {l : Label}
    (hk : lines[k]? = some (.define l)) :
    found.lookup l.text = some (codeSize (lines.take k)) := by
  obtain ⟨hl, he⟩ := List.getElem?_eq_some_iff.1 hk
  have hp : Placed lines (codeSize (lines.take k)) [.define l] := by
    refine ⟨lines.take k, lines.drop (k + 1), ?_, rfl⟩
    rw [← he, List.append_assoc, List.singleton_append, List.getElem_cons_drop,
      List.take_append_drop]
  rw [hf]
  exact hp.labelAddress? (Program.nodup_labels h)

/-- Without its separators the listing of a program has each line of the output in its order, behind
its address: that of an instruction is its number among the instructions, that of a label what the
first pass of the assembler finds, and a comment has none. The addresses end at the number of all
instructions. With its separators, the listing has one more for each label that is jumped to. -/
theorem Program.listing_addresses (h : p.lower o = .ok lines) :
    let texts := lines.map Line.text
    let targets := Listing.jumpTargets texts
    let shown := (Listing.listing texts).filter (· ≠ Listing.separator)
    ∃ found, Assembler.labels? 0 (Assembler.significant texts) = some found ∧
      shown.length = lines.length ∧
      (∀ (k : Nat) line, lines[k]? = some line →
        ∃ n, shown[k]? = some (line.front targets n ++ line.text) ∧
          n = Listing.instructionCount (texts.take k) ∧
          ∀ l, line = .define l → found.lookup l.text = some n) ∧
      (texts.foldl (Listing.State.step targets) ⟨0, #[]⟩).address =
        Listing.instructionCount texts ∧
      (Listing.listing texts).length = lines.length + lines.countP (Line.isMarked targets) := by
  intro texts targets shown
  obtain ⟨found, hf, hlookup⟩ := Program.first_pass h
  have hshown : shown = lines.mapIdx fun k line =>
      line.front targets (0 + codeSize (lines.take k)) ++ line.text := by
    rw [← filter_entriesFrom, ← Listing.listing_eq]
  refine ⟨found, hf, by rw [hshown, List.length_mapIdx], fun k line hk => ?_, ?_, ?_⟩
  · refine ⟨codeSize (lines.take k), ?_, ?_, ?_⟩
    · rw [hshown, List.getElem?_mapIdx, hk, Nat.zero_add]
      rfl
    · rw [← List.map_take, instructionCount_text]
    · rintro l rfl
      exact lookup_define h hlookup hk
  · rw [Listing.foldl_step, foldl_addressAfter_text, instructionCount_text, Nat.zero_add]
  · rw [Listing.listing_eq, length_entriesFrom]

end Addresses

def pushedLoop : Program :=
  ⟨[⟨"Main", [⟨1, "push constant 7", .push .constant 7⟩, ⟨2, "label LOOP", .label "LOOP"⟩,
    ⟨3, "goto LOOP", .goto "LOOP"⟩]⟩]⟩

/-- Its label stands behind two comments and seven instructions. -/
theorem pushedLoop_listed : ∃ lines found, pushedLoop.lower ⟨false, true⟩ = .ok lines ∧
    Assembler.labels? 0 (Assembler.significant (lines.map Line.text)) = some found ∧
    found.lookup "LOOP" = some 7 ∧
    ((Listing.listing (lines.map Line.text)).filter (· ≠ Listing.separator))[9]? =
      some "0007 ► (LOOP)" ∧
    (Listing.listing (lines.map Line.text)).length = lines.length + 1 := by
  have h : pushedLoop.lower ⟨false, true⟩ = .ok _ := Program.lower_of_accepted (by decide)
  obtain ⟨found, hf, -, hlines, -, htotal⟩ := Program.listing_addresses h
  obtain ⟨n, hshown, rfl, hlabel⟩ := hlines 9 (.define (.named "LOOP")) rfl
  exact ⟨_, found, h, hf, hlabel _ rfl, hshown, htotal.trans (by decide +kernel)⟩

end StackLowering
