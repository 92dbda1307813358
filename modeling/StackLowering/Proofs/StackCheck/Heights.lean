import StackLowering.Proofs.Machine.Footprint
import StackLowering.Proofs.Machine.Linking
import StackLowering.Proofs.StackCheck.Scan
/-! The heights that the check of the stack finds are those of the machine. The code of commands
that do not jump moves the stack pointer as the check counts, and uses no word below the locals' end
but those that a command names. -/
namespace StackLowering
open Assembly Machine

/-- Whether the command neither jumps nor makes a frame, so that the one in the next place runs
next. -/
def Command.isStraight : Command → Bool
  | push .. | pop .. | operate _ | label _ => true
  | _ => false

private theorem Command.passes_of_isStraight {c : Command} (h : c.isStraight = true) :
    c.passes = true ∧ c.entered?.isSome = false := by
  cases c with
  | push | pop | operate | label => exact ⟨rfl, rfl⟩
  | _ => cases h

def Program.single (unit : String) (ls : List Located) : Program := ⟨[⟨unit, ls⟩]⟩

/-- What may stand in front of commands: nothing, or the entry of a function with so many locals. -/
inductive Header : List Located → Nat → Prop
  | none : Header [] 0
  | function (line : Nat) (text name : String) (count : UInt16) :
    Header [⟨line, text, .function name count⟩] count.toNat

def Site.place? (value : String → Word) (m : Memory) (s : Site) : Option Word :=
  match s.command with
  | .push g i | .pop g i => g.place? m (value (Symbol.static s.unit i).text) i
  | _ => none

/-- A run whose stack stays below the upper half of the memory, and none of whose pops stores to the
stack pointer. -/
structure Tame (o : LoweringOptions) (sites : List Site) (s : Machine.State) : Prop where
  high : ∀ t, s.Reaches (image (o.lines sites)) t → t.memory.sp.toNat ≤ 0x8000
  stores : ∀ t k site g i, s.Reaches (image (o.lines sites)) t → t.next = o.codeAddress sites k →
    sites[k]? = some site → site.command = .pop g i →
    site.place? (symbolValue (o.lines sites)) t.memory ≠ some (address .sp)

private theorem Tame.of_reaches {o : LoweringOptions} {sites : List Site} {s t : Machine.State}
    (h : Tame o sites s) (hst : s.Reaches (image (o.lines sites)) t) : Tame o sites t :=
  ⟨fun u hu => h.high u (hst.trans hu), fun u k site g i hu => h.stores u k site g i (hst.trans hu)⟩

/-- The machine stands in front of a command with the stack as high above an address as the check
knows. -/
structure AtHeight (o : LoweringOptions) (sites : List Site) (ls : List Located) (low k : Nat)
    (t : Machine.State) : Prop where
  next : t.next = o.codeAddress sites k
  sp : ∃ c h, StackCheck.At ls k c ∧ c.height = some h ∧ t.memory.sp.toNat = low + h

namespace StackCheck

/-- A straight command at a known height finds its words, and the next height is known too. -/
private theorem step_straight {s t : StackCheck} {l : Located} {h : Nat}
    (hc : l.command.isStraight = true) (hh : s.height = some h) (hs : s.step l = .ok t) :
    l.command.effect.1 ≤ h ∧ t.height = some (l.command.leaves h) := by
  have hf : s.found? l.command = some h := by
    cases hl : l.command with
    | label n => rw [found?, hh, Option.some_or]
    | push | pop | operate => exact hh
    | _ => rw [hl] at hc; cases hc
  obtain ⟨hp, he⟩ := Command.passes_of_isStraight hc
  rcases step_cases hs with ⟨hn, -⟩ | ⟨-, hn, -⟩ | ⟨-, k, hk, hle, rfl⟩
  · rw [he] at hn
    cases hn
  · rw [hf] at hn
    cases hn
  · obtain rfl := Option.some.inj (hk.symm.trans hf)
    exact ⟨hle, by rw [height_leave, if_pos hp]⟩

end StackCheck

section Command
variable {o : LoweringOptions} {sites : List Site} {site : Site} {k low : Nat}
  {s : Machine.State}

/-- The code of a straight command takes as many words from the stack and leaves as many as the
check counts. -/
private theorem through_straight (ha : Acceptable sites) (hl : Linked (o.lines sites))
    (hs : sites[k]? = some site) (hc : site.command.isStraight = true) (hlow : 16 ≤ low)
    (hn : s.next = o.codeAddress sites k)
    (hsp : low + site.command.effect.1 ≤ s.memory.sp.toNat) (ht : Tame o sites s) :
    ∃ t, s.Through (image (o.lines sites))
        (Within low (site.place? (symbolValue (o.lines sites)) s.memory)) t ∧
      t.next = o.codeAddress sites (k + 1) ∧
      t.memory.sp.toNat + site.command.effect.1 =
        s.memory.sp.toNat + site.command.effect.2 := by
  have hmem := List.mem_of_getElem? hs
  have hhigh := ht.high s (.refl _ s)
  cases hcommand : site.command with
  | push g i =>
    rw [hcommand] at hsp
    have hb : o.blockAt sites k site = Block.load site.unit i g.addressing ++ Block.pushD := by
      rw [LoweringOptions.blockAt, hcommand,
        Command.block_push (ha.inRange site hmem g i (.inl hcommand))]
    obtain ⟨hp, hend⟩ := LoweringOptions.placed_block hs hb hn
    obtain ⟨t, hst, htn, hts⟩ := hl.through_push hlow hsp (by omega) hp
    rw [Site.place?, hcommand]
    exact ⟨t, hst, htn.trans hend, hts⟩
  | pop g i =>
    rw [hcommand] at hsp
    have hg := ha.stored hmem hcommand
    obtain ⟨code, hcode⟩ := Block.exists_locate site.unit i hg
    obtain ⟨x, hx⟩ := Segment.exists_place hg s.memory
      (symbolValue (o.lines sites) (Symbol.static site.unit i).text) i
    have hplace : site.place? (symbolValue (o.lines sites)) s.memory = some x := by
      rw [Site.place?, hcommand, ← hx]
    -- A pop that stores to the stack pointer itself would move the stack behind the check's back.
    have hstore : x ≠ address .sp := fun h =>
      ht.stores s k site g i (.refl _ s) hn hs hcommand (h ▸ hplace)
    have hb : o.blockAt sites k site = Block.popTo code := by
      rw [LoweringOptions.blockAt, hcommand,
        Command.block_pop (ha.inRange site hmem g i (.inr hcommand)) hcode]
    obtain ⟨hp, hend⟩ := LoweringOptions.placed_block hs hb hn
    obtain ⟨t, hst, htn, hts⟩ := hl.through_pop hsp hx hcode hstore hp
    rw [hplace]
    exact ⟨t, hst, htn.trans hend, hts⟩
  | operate op =>
    rw [hcommand] at hsp
    have hb : o.blockAt sites k site = Block.operator op (o.numberAt sites k) := by
      rw [LoweringOptions.blockAt, hcommand, Command.block]
    obtain ⟨hp, hend⟩ := LoweringOptions.placed_block hs hb hn
    obtain ⟨t, hst, htn, hts⟩ := hl.through_operate hlow hsp hp
    rw [Site.place?, hcommand]
    exact ⟨t, hst, htn.trans hend, hts⟩
  | label name =>
    have hb : o.blockAt sites k site = Block.label (symbolIn site.body name) := by
      rw [LoweringOptions.blockAt, hcommand, Command.block]
    obtain ⟨-, hend⟩ := LoweringOptions.placed_block hs hb hn
    exact ⟨s, .refl s, hend, rfl⟩
  | _ => rw [hcommand] at hc; cases hc

end Command

section Run
variable {o : LoweringOptions} {ls header body : List Located} {unit : String} {k low n : Nat}
  {s t : Machine.State} {site : Site}

/-- The places of a program of one unit are those of its list of commands. -/
private theorem exists_site (unit : String) {l : Located} (hl : ls[k]? = some l) :
    ∃ site : Site, (Program.single unit ls).sites[k]? = some site ∧ site.located = l := by
  rw [Program.single, Program.sites, List.flatMap_singleton, SourceUnit.sites, sitesBehind,
    List.getElem?_mapIdx, hl]
  exact ⟨_, rfl, rfl⟩

/-- From one command to the next. -/
private theorem AtHeight.step {sites : List Site} (ha : Acceptable sites)
    (hl : Linked (o.lines sites)) (hok : checkStack ls = .ok ()) (hs : sites[k]? = some site)
    (hls : ls[k]? = some site.located) (hc : site.command.isStraight = true) (hlow : 16 ≤ low)
    (ht : AtHeight o sites ls low k t) (htame : Tame o sites t) :
    ∃ u, t.Through (image (o.lines sites))
        (Within low (site.place? (symbolValue (o.lines sites)) t.memory)) u ∧
      AtHeight o sites ls low (k + 1) u := by
  obtain ⟨c, h, hat, hh, hsp⟩ := ht.sp
  obtain ⟨c', hat'⟩ := StackCheck.exists_at hok (k + 1)
  obtain ⟨c₀, hat₀, hstep⟩ := hat'.pred hls
  obtain rfl := hat₀.unique hat
  obtain ⟨hle, hh'⟩ := StackCheck.step_straight hc hh hstep
  have hle : site.command.effect.1 ≤ h := hle
  obtain ⟨u, htu, hn, hu⟩ := through_straight ha hl hs hc hlow ht.next (by omega) htame
  refine ⟨u, htu, hn, c', _, hat', hh', ?_⟩
  show _ = low + site.command.leaves h
  rw [Command.leaves]
  omega

/-- The locals of a function are pushed in front of its first command. -/
private theorem Header.start (hh : Header header n)
    (hl : Linked (o.lines (Program.single unit (header ++ body)).sites))
    (hs : s.next = o.codeAddress (Program.single unit (header ++ body)).sites 0)
    (hlow : 16 ≤ s.memory.sp.toNat) (hhigh : s.memory.sp.toNat ≤ 0x8000) :
    ∃ t, s.Reaches (image (o.lines (Program.single unit (header ++ body)).sites)) t ∧
      AtHeight o (Program.single unit (header ++ body)).sites (header ++ body)
        (s.memory.sp.toNat + n) header.length t := by
  cases hh with
  | none => exact ⟨s, .refl _ s, hs, .initial, 0, StackCheck.at_zero _, rfl, rfl⟩
  | function line text name count =>
    have hls : ([⟨line, text, .function name count⟩] ++ body)[0]? =
        some ⟨line, text, .function name count⟩ := rfl
    obtain ⟨site, hsite, hlocated⟩ := exists_site unit hls
    have hc : site.command = .function name count := by
      rw [Site.command, hlocated]
    have hb : o.blockAt (Program.single unit ([⟨line, text, .function name count⟩] ++ body)).sites 0
        site = Block.function name count := by
      rw [LoweringOptions.blockAt, hc, Command.block]
    obtain ⟨hp, hend⟩ := LoweringOptions.placed_block hsite hb hs
    have hsize := hp.le_codeSize
    have hfits := hl.fits
    rw [Block.codeSize_function] at hsize
    obtain ⟨t, hst, hn, hm⟩ := hl.function hp
    refine ⟨t, hst, hn.trans hend, .initial, 0, rfl, rfl, ?_⟩
    rw [hm, Memory.toNat_sp_pushZeros hlow (by omega)]
    rfl

/-- States that follow one another, each found from the one before. -/
private theorem exists_states {Q : Nat → Machine.State → Prop}
    {R : Nat → Machine.State → Machine.State → Prop} (h0 : Q 0 s)
    (hstep : ∀ i < n, ∀ t, Q i t → ∃ u, R i t u ∧ Q (i + 1) u) :
    ∃ f : Nat → Machine.State, (∀ i ≤ n, Q i (f i)) ∧ ∀ i < n, R i (f i) (f (i + 1)) := by
  have : Nonempty Machine.State := ⟨s⟩
  choose! next hr hq using hstep
  let f : Nat → Machine.State := fun i => i.rec s next
  have hf : ∀ i ≤ n, Q i (f i) := by
    intro i hi
    induction i with
    | zero => exact h0
    | succ i ih => exact hq i hi (f i) (ih (Nat.le_of_succ_le hi))
  exact ⟨f, hf, fun i hi => hr i hi (f i) (hf i (Nat.le_of_lt hi))⟩

/-- In a list of straight commands, with the entry of a function in front or not, the stack is in
front of each command as high above the locals as the check knows. The code of a command does not
take the stack pointer below the locals' end, and uses no word below it but registers and the word
that the command names. -/
theorem checked_heights_are_reached {lines : List Line} (hh : Header header n)
    (hbody : ∀ l ∈ body, l.command.isStraight = true)
    (hok : checkStack (header ++ body) = .ok ())
    (h : (Program.single unit (header ++ body)).lower o = .ok lines)
    (hu : ∀ name ∈ definitions (Program.single unit (header ++ body)).sites,
      predefined.lookup name = none)
    (hsize : codeSize lines ≤ 0x8000)
    (hs : s.next = o.codeAddress (Program.single unit (header ++ body)).sites 0)
    (hsp : 16 ≤ s.memory.sp.toNat) (ht : Tame o (Program.single unit (header ++ body)).sites s) :
    let sites := (Program.single unit (header ++ body)).sites
    let low := s.memory.sp.toNat + n
    ∃ boundary : Nat → Machine.State, s.Reaches (image lines) (boundary 0) ∧
      (∀ i ≤ body.length,
        AtHeight o sites (header ++ body) low (header.length + i) (boundary i)) ∧
      ∀ i < body.length, ∃ site, sites[header.length + i]? = some site ∧
        (boundary i).Through (image lines)
          (Within low (site.place? (symbolValue lines) (boundary i).memory))
          (boundary (i + 1)) := by
  intro sites low
  have hl := Program.linked h hu hsize
  obtain ⟨ha, rfl⟩ := Program.acceptable_of_lower h
  obtain ⟨t, hst, hat⟩ := hh.start hl hs hsp (ht.high s (.refl _ s))
  -- The machine is tame as far as it is reached from the start, so that goes into the invariant.
  have hstep : ∀ i < body.length, ∀ t : Machine.State,
      s.Reaches (image (o.lines sites)) t ∧
        AtHeight o sites (header ++ body) low (header.length + i) t →
      ∃ u, (∃ site, sites[header.length + i]? = some site ∧
          t.Through (image (o.lines sites))
            (Within low (site.place? (symbolValue (o.lines sites)) t.memory)) u) ∧
        s.Reaches (image (o.lines sites)) u ∧
        AtHeight o sites (header ++ body) low (header.length + (i + 1)) u := by
    rintro i hi t ⟨hst, hat⟩
    have hls : (header ++ body)[header.length + i]? = some body[i] := by
      rw [List.getElem?_append_right (Nat.le_add_right _ _), Nat.add_sub_cancel_left,
        List.getElem?_eq_getElem hi]
    obtain ⟨site, hsite, hlocated⟩ := exists_site unit hls
    have hc : site.command.isStraight = true := by
      rw [Site.command, hlocated]
      exact hbody _ (List.getElem_mem hi)
    rw [← hlocated] at hls
    obtain ⟨u, htu, hu⟩ := AtHeight.step ha hl hok hsite hls hc (by omega) hat
      (ht.of_reaches hst)
    exact ⟨u, ⟨site, hsite, htu⟩, hst.trans htu.reaches, hu⟩
  obtain ⟨boundary, hq, hr⟩ := exists_states ⟨hst, hat⟩ hstep
  exact ⟨boundary, (hq 0 (Nat.zero_le _)).1, fun i hi => (hq i hi).2, hr⟩

end Run

def oneLocal : List Located := [⟨1, "function Main.f 1", .function "Main.f" 1⟩]

def addSeven : List Located :=
  [⟨2, "push constant 7", .push .constant 7⟩, ⟨3, "push local 0", .push .locals 0⟩,
    ⟨4, "add", .operate .add⟩, ⟨5, "pop local 0", .pop .locals 0⟩]

def onEntry : Machine.State :=
  ⟨0, 0, (Memory.store (fun _ => 0) (address .sp) 256).store (address .lcl) 256, 0⟩

private theorem onEntry_tame :
    Tame ⟨false, false⟩ (Program.single "Main" (oneLocal ++ addSeven)).sites onEntry := by
  let code := image ((⟨false, false⟩ : LoweringOptions).lines
    (Program.single "Main" (oneLocal ++ addSeven)).sites)
  have hend : (onEntry.run? code 60).isNone = true := by decide +kernel
  have hrun : ∀ m < 60, (onEntry.run? code m).all (fun t =>
      decide (t.memory.sp.toNat ≤ 0x8000 ∧ t.memory (address .lcl) = 256)) = true := by
    decide +kernel
  have hall : ∀ t, onEntry.Reaches code t →
      t.memory.sp.toNat ≤ 0x8000 ∧ t.memory (address .lcl) = 256 := by
    rintro t ⟨m, hm⟩
    have hlt : m < 60 := by
      by_contra hge
      obtain ⟨u, hu⟩ := State.exists_run?_of_le hm (Nat.le_of_not_lt hge)
      rw [hu] at hend
      cases hend
    have ht := hrun m hlt
    rw [hm, Option.all_some] at ht
    exact of_decide_eq_true ht
  refine ⟨fun t ht => (hall t ht).1, fun t k site g i ht _ hs hc => ?_⟩
  have hmem : ∀ site ∈ (Program.single "Main" (oneLocal ++ addSeven)).sites, ∀ g i,
      site.command = .pop g i → g = .locals ∧ i = 0 := by
    simp [Program.single, Program.sites, SourceUnit.sites, sitesBehind, oneLocal, addSeven,
      Site.command]
  obtain ⟨rfl, rfl⟩ := hmem site (List.mem_of_getElem? hs) g i hc
  rw [Site.place?, hc]
  show some (t.memory (address .lcl) + _) ≠ _
  rw [(hall t ht).2]
  decide

/-- There are two words on the stack in front of the addition, and none behind the pop. -/
theorem addSeven_heights :
    let sites := (Program.single "Main" (oneLocal ++ addSeven)).sites
    let o : LoweringOptions := ⟨false, false⟩
    ∃ boundary : Nat → Machine.State, onEntry.Reaches (image (o.lines sites)) (boundary 0) ∧
      (boundary 0).Reaches (image (o.lines sites)) (boundary 1) ∧
      (boundary 2).next = o.codeAddress sites 3 ∧ (boundary 2).memory.sp.toNat = 257 + 2 ∧
      (boundary 4).next = codeSize (o.lines sites) ∧ (boundary 4).memory.sp.toNat = 257 := by
  intro sites o
  have h : (Program.single "Main" (oneLocal ++ addSeven)).lower o = .ok _ :=
    Program.lower_of_accepted (by decide)
  obtain ⟨boundary, h0, hb, hr⟩ :=
    checked_heights_are_reached (.function 1 "function Main.f 1" "Main.f" 1) (by decide)
      (by decide) h (by decide) (by decide) rfl (by decide) onEntry_tame
  obtain ⟨site, -, h01⟩ := hr 0 (by decide)
  obtain ⟨hn, c, h, hat, hc, hsp⟩ := hb 2 (by decide)
  obtain ⟨hn', c', h', hat', hc', hsp'⟩ := hb 4 (by decide)
  obtain rfl := hat.unique (t := ⟨some 2, []⟩) rfl
  obtain rfl := hat'.unique (t := ⟨some 0, []⟩) rfl
  cases hc
  cases hc'
  exact ⟨boundary, h0, h01.reaches, hn, hsp, hn', hsp'⟩

end StackLowering
