import StackLowering.Proofs.Machine.Block
import StackLowering.Proofs.Machine.Linking
/-! The machine does on the code of a program what the stack machine does on its commands. Each
command is one way through its block, and a run is such ways one behind the other. -/
namespace StackLowering
open Assembly Machine StackMachine

/-- The machine is at the code of the next command, and its memory is that of the stack machine,
scratch words apart. -/
structure Matches (o : LoweringOptions) (sites : List Site) (v : StackMachine.State)
    (s : Machine.State) : Prop where
  next : s.next = o.codeAddress sites v.next
  memory : s.memory.Agrees v.memory

/-- The machine follows a command. Without a step of its own, only to the next command. -/
def Mimics (o : LoweringOptions) (sites : List Site) (s : Machine.State)
    (v w : StackMachine.State) : Prop :=
  ∃ t, Matches o sites w t ∧
    (s.Advances (image (o.lines sites)) t ∨
      s.Reaches (image (o.lines sites)) t ∧ w.next = v.next + 1)

section
variable {o : LoweringOptions} {sites : List Site} {site : Site} {s : Machine.State}
  {v w : StackMachine.State}

private theorem mimics_of_leadsTo {n : Nat} {m : Memory}
    (h : s.LeadsTo (image (o.lines sites)) n m) (hn : n = o.codeAddress sites w.next)
    (hm : m.Agrees w.memory) : Mimics o sites s v w := by
  obtain ⟨t, hst, rfl, rfl⟩ := h
  exact ⟨t, ⟨hn, hm⟩, .inl hst⟩

/-- The machine is in front of the block of the next command. -/
private theorem Matches.placed (h : Matches o sites v s) (hs : sites[v.next]? = some site)
    {block : List Line} (hb : o.blockAt sites v.next site = block) :
    Placed (o.lines sites) s.next block ∧
      s.next + codeSize block = o.codeAddress sites (v.next + 1) :=
  LoweringOptions.placed_block hs hb h.next

/-- Both machines find the words of a segment at the same addresses. -/
private theorem place?_eq (ha : Acceptable sites) (hp : Linkable o sites) (hs : site ∈ sites)
    {m m' : Memory} (hm : m.Agrees m') {g : Segment} {i : UInt16}
    (hv : g = .static → site.static? = some (Symbol.static site.unit i).text) :
    g.place? m (symbolValue (o.lines sites) (Symbol.static site.unit i).text) i =
      g.place? m' (variableAddress sites site i) i := by
  cases g with
  | locals | arguments | this | that =>
    rw [Segment.place?, Segment.place?, hm.address (by decide)]
  | static => rw [Segment.place?, Segment.place?, symbolValue_static ha hp hs (hv rfl)]
  | _ => rfl

private theorem mimics_push (ha : Acceptable sites) (hp : Linkable o sites)
    (hl : Linked (o.lines sites)) (hm : Matches o sites v s) (hv : Clear sites v) {g : Segment}
    {i : UInt16} (hs : sites[v.next]? = some site) (hc : site.command = .push g i) :
    Mimics o sites s v
      ⟨v.memory.push (g.read v.memory (variableAddress sites site i) i), v.next + 1⟩ := by
  have hmem := List.mem_of_getElem? hs
  have hb : o.blockAt sites v.next site =
      Block.load site.unit i g.addressing ++ Block.pushD := by
    rw [LoweringOptions.blockAt, hc, Command.block_push (ha.inRange site hmem g i (.inl hc))]
  have hplace := place?_eq ha hp hmem hm.memory (g := g) (i := i) fun hg => by
    rw [Site.static?, hc, hg]
  have hread : g.read s.memory (symbolValue (o.lines sites) (Symbol.static site.unit i).text) i =
      g.read v.memory (variableAddress sites site i) i := by
    rw [Segment.read, Segment.read, hplace]
    cases hx : g.place? v.memory (variableAddress sites site i) i with
    | none => rfl
    | some x =>
      refine hm.memory x (hv site hs x ?_)
      rw [touched, hc]
      exact Option.mem_toList.2 hx
  obtain ⟨hpl, hn⟩ := hm.placed hs hb
  exact mimics_of_leadsTo (hl.push hpl) hn (hm.memory.push hread)

private theorem mimics_pop (ha : Acceptable sites) (hp : Linkable o sites)
    (hl : Linked (o.lines sites)) (hm : Matches o sites v s) (hv : Clear sites v) {g : Segment}
    {i : UInt16} {x : Word} (hs : sites[v.next]? = some site) (hc : site.command = .pop g i)
    (hx : g.place? v.memory (variableAddress sites site i) i = some x) :
    Mimics o sites s v ⟨v.memory.popTo x, v.next + 1⟩ := by
  have hmem := List.mem_of_getElem? hs
  have hi := ha.inRange site hmem g i (.inr hc)
  obtain ⟨code, hcode⟩ := Block.exists_locate site.unit i (ha.stored hmem hc)
  have hb : o.blockAt sites v.next site = Block.popTo code := by
    rw [LoweringOptions.blockAt, hc, Command.block_pop hi hcode]
  have hplace := place?_eq ha hp hmem hm.memory (g := g) (i := i) fun hg => by
    rw [Site.static?, hc, hg]
  have htop : ¬Scratch (v.memory.sp - 1) := by
    refine hv site hs _ ?_
    rw [touched, hc]
    exact List.mem_singleton_self _
  obtain ⟨hpl, hn⟩ := hm.placed hs hb
  exact mimics_of_leadsTo (hl.pop (hplace.trans hx) hcode hpl) hn (hm.memory.popBy x htop)

private theorem mimics_operate (hl : Linked (o.lines sites)) (hm : Matches o sites v s)
    (hv : Clear sites v) {op : Operator} (hs : sites[v.next]? = some site)
    (hc : site.command = .operate op) :
    Mimics o sites s v ⟨v.memory.operate op, v.next + 1⟩ := by
  have hb : o.blockAt sites v.next site = Block.operator op (o.numberAt sites v.next) := by
    rw [LoweringOptions.blockAt, hc, Command.block]
  have hclear := hv site hs
  rw [touched, hc] at hclear
  dsimp only at hclear
  have htop : ¬Scratch (v.memory.sp - 1) := hclear _ (by split <;> exact List.mem_cons_self)
  have hnext : op.operands = 2 → ¬Scratch (v.memory.sp - 2) := by
    intro ho
    rw [if_pos ho] at hclear
    exact hclear _ (List.mem_cons_of_mem _ (List.mem_singleton_self _))
  obtain ⟨hpl, hn⟩ := hm.placed hs hb
  exact mimics_of_leadsTo (hl.operate hpl) hn (hm.memory.operate op htop hnext)

private theorem mimics_label (hm : Matches o sites v s) {name : String}
    (hs : sites[v.next]? = some site) (hc : site.command = .label name) :
    Mimics o sites s v ⟨v.memory, v.next + 1⟩ := by
  have hb : o.blockAt sites v.next site = [.define (.named (symbolIn site.body name))] := by
    rw [LoweringOptions.blockAt, hc]
    rfl
  exact ⟨s, ⟨(hm.placed hs hb).2, hm.memory⟩, .inr ⟨.refl _ s, rfl⟩⟩

private theorem mimics_goto (hl : Linked (o.lines sites)) (hm : Matches o sites v s)
    {name : String} {k : Nat} (hs : sites[v.next]? = some site)
    (hc : site.command = .goto name) (hk : DefinedAt sites (symbolIn site.body name) k) :
    Mimics o sites s v ⟨v.memory, k⟩ := by
  have hb : o.blockAt sites v.next site = Block.goto (symbolIn site.body name) := by
    rw [LoweringOptions.blockAt, hc, Command.block]
  obtain ⟨block, ht⟩ := hk.placed (o := o)
  obtain ⟨hpl, -⟩ := hm.placed hs hb
  exact mimics_of_leadsTo (hl.goto hpl ht) rfl hm.memory

private theorem dropped_eq (hm : Matches o sites v s) (hv : Clear sites v) {name : String}
    (hs : sites[v.next]? = some site) (hc : site.command = .ifGoto name) :
    s.memory.drop.dropped = v.memory.drop.dropped := by
  refine hm.memory.dropped (hv site hs _ ?_)
  rw [touched, hc]
  exact List.mem_singleton_self _

private theorem mimics_ifGoto (hl : Linked (o.lines sites)) (hm : Matches o sites v s)
    (hv : Clear sites v) {name : String} {k : Nat} (hs : sites[v.next]? = some site)
    (hc : site.command = .ifGoto name) (hw : v.memory.drop.dropped ≠ 0)
    (hk : DefinedAt sites (symbolIn site.body name) k) :
    Mimics o sites s v ⟨v.memory.drop, k⟩ := by
  have hb : o.blockAt sites v.next site = Block.ifGoto (symbolIn site.body name) := by
    rw [LoweringOptions.blockAt, hc, Command.block]
  obtain ⟨block, ht⟩ := hk.placed (o := o)
  obtain ⟨hpl, -⟩ := hm.placed hs hb
  rw [← dropped_eq hm hv hs hc] at hw
  exact mimics_of_leadsTo (hl.ifGoto_taken hpl ht hw) rfl hm.memory.drop

private theorem mimics_ifNotGoto (hl : Linked (o.lines sites)) (hm : Matches o sites v s)
    (hv : Clear sites v) {name : String} (hs : sites[v.next]? = some site)
    (hc : site.command = .ifGoto name) (hw : v.memory.drop.dropped = 0) :
    Mimics o sites s v ⟨v.memory.drop, v.next + 1⟩ := by
  have hb : o.blockAt sites v.next site = Block.ifGoto (symbolIn site.body name) := by
    rw [LoweringOptions.blockAt, hc, Command.block]
  obtain ⟨hpl, hn⟩ := hm.placed hs hb
  rw [← dropped_eq hm hv hs hc] at hw
  exact mimics_of_leadsTo (hl.ifGoto_passed hpl hw) hn hm.memory.drop

private theorem mimics_function (hl : Linked (o.lines sites)) (hm : Matches o sites v s)
    {name : String} {count : UInt16} (hs : sites[v.next]? = some site)
    (hc : site.command = .function name count) :
    Mimics o sites s v ⟨v.memory.pushZeros count.toNat, v.next + 1⟩ := by
  have hb : o.blockAt sites v.next site = Block.function name count := by
    rw [LoweringOptions.blockAt, hc, Command.block]
  obtain ⟨hpl, hn⟩ := hm.placed hs hb
  obtain ⟨t, hst, ht, hmem⟩ := hl.function hpl
  exact ⟨t, ⟨ht.trans hn, hmem ▸ hm.memory.pushZeros count.toNat⟩, .inr ⟨hst, rfl⟩⟩

private theorem mimics_call (hl : Linked (o.lines sites)) (hm : Matches o sites v s)
    {name : String} {count : UInt16} {k : Nat} (hs : sites[v.next]? = some site)
    (hc : site.command = .call name count) (hk : DefinedAt sites name k) :
    Mimics o sites s v
      ⟨v.memory.call (.ofNat 16 (o.codeAddress sites (v.next + 1))) count.toBitVec, k⟩ := by
  have hb : o.blockAt sites v.next site = Block.call name count (o.numberAt sites v.next) := by
    rw [LoweringOptions.blockAt, hc, Command.block]
  obtain ⟨block, ht⟩ := hk.placed (o := o)
  obtain ⟨hpl, hn⟩ := hm.placed hs hb
  have hw := hl.call hpl ht
  rw [hn] at hw
  exact mimics_of_leadsTo hw rfl (hm.memory.call _ _)

private theorem mimics_ret (hl : Linked (o.lines sites)) (hm : Matches o sites v s)
    (hv : Clear sites v) {k : Nat} (hs : sites[v.next]? = some site)
    (hc : site.command = .ret) (hk : o.codeAddress sites k = v.memory.back.toNat) :
    Mimics o sites s v ⟨v.memory.leave, k⟩ := by
  have hb : o.blockAt sites v.next site = Block.ret := by
    rw [LoweringOptions.blockAt, hc, Command.block]
  have hclear := hv site hs
  rw [touched, hc] at hclear
  dsimp only at hclear
  obtain ⟨hpl, -⟩ := hm.placed hs hb
  obtain ⟨hu, hback⟩ := hm.memory.unwind (hclear _ (by simp)) (hclear _ (by simp))
    fun k hk => hclear _ (List.mem_append_right _ (List.mem_map_of_mem hk))
  exact mimics_of_leadsTo (hl.ret hpl) (by rw [hback, hk]) hu

/-- Each command of the stack machine is a way through its block. -/
private theorem Matches.mimics (ha : Acceptable sites) (hp : Linkable o sites)
    (hl : Linked (o.lines sites)) (hm : Matches o sites v s) (hv : Clear sites v)
    (h : StackMachine.Step o sites v w) : Mimics o sites s v w := by
  cases h with
  | push hs hc => exact mimics_push ha hp hl hm hv hs hc
  | pop hs hc hx => exact mimics_pop ha hp hl hm hv hs hc hx
  | operate hs hc => exact mimics_operate hl hm hv hs hc
  | label hs hc => exact mimics_label hm hs hc
  | goto hs hc hk => exact mimics_goto hl hm hs hc hk
  | ifGoto hs hc hw hk => exact mimics_ifGoto hl hm hv hs hc hw hk
  | ifNotGoto hs hc hw => exact mimics_ifNotGoto hl hm hv hs hc hw
  | function hs hc => exact mimics_function hl hm hs hc
  | call hs hc hk => exact mimics_call hl hm hs hc hk
  | ret hs hc _ hk => exact mimics_ret hl hm hv hs hc hk

private theorem lt_length (h : StackMachine.Step o sites v w) : v.next < sites.length := by
  have hs : ∃ s, sites[v.next]? = some s := by cases h <;> exact ⟨_, ‹_›⟩
  obtain ⟨s, hs⟩ := hs
  exact (List.getElem?_eq_some_iff.1 hs).1

private theorem DefinedAt.lt_length {name : String} {k : Nat} (h : DefinedAt sites name k) :
    k < sites.length := by
  obtain ⟨s, hs, -⟩ := h
  exact (List.getElem?_eq_some_iff.1 hs).1

/-- The stack machine never leaves the commands but by their end. -/
private theorem next_le_length {n : Nat} (h : Run o sites n v w) (hv : v.next ≤ sites.length) :
    w.next ≤ sites.length := by
  induction h with
  | done => exact hv
  | step _ hstep _ ih =>
    have hlt := lt_length hstep
    refine ih ?_
    cases hstep with
    | goto _ _ hk => exact Nat.le_of_lt hk.lt_length
    | ifGoto _ _ _ hk => exact Nat.le_of_lt hk.lt_length
    | call _ _ hk => exact Nat.le_of_lt hk.lt_length
    | ret _ _ hk _ => exact Nat.le_of_lt hk
    | _ => exact hlt

/-- A run of the stack machine is one of the machine. Steps of the machine are missing at labels and
entries only, and these lead onwards. -/
private theorem Matches.run (ha : Acceptable sites) (hp : Linkable o sites)
    (hl : Linked (o.lines sites)) {n : Nat} (h : Run o sites n v w) (hm : Matches o sites v s) :
    ∃ k t, s.run? (image (o.lines sites)) k = some t ∧ Matches o sites w t ∧
      n + v.next ≤ k * (sites.length + 1) + w.next := by
  induction h generalizing s with
  | done => exact ⟨0, s, rfl, hm, by omega⟩
  | step hv hstep _ ih =>
    obtain ⟨t, ht, hst⟩ := hm.mimics ha hp hl hv hstep
    obtain ⟨k, u, hk, hu, hn⟩ := ih ht
    have hlt := lt_length hstep
    -- A command without code goes on to the next one, and at most all of them are such in a row.
    rcases hst with ⟨j, hj⟩ | ⟨⟨j, hj⟩, hnext⟩
    · refine ⟨j + 1 + k, u, ?_, hu, ?_⟩
      · rw [State.run?_add, hj, Option.bind_some, hk]
      · rw [Nat.add_mul, Nat.add_mul]
        omega
    · refine ⟨j + k, u, ?_, hu, ?_⟩
      · rw [State.run?_add, hj, Option.bind_some, hk]
      · rw [Nat.add_mul]
        omega

/-- The code in front of the first command leads to where the stack machine starts. -/
private theorem matches_of_start (hl : Linked (o.lines sites))
    (h : Start o sites s.memory v) (hs : s.next = 0) :
    ∃ t, s.Reaches (image (o.lines sites)) t ∧ Matches o sites v t := by
  cases h with
  | plain ho =>
    refine ⟨s, .refl _ s, ?_, .refl s.memory⟩
    rw [hs, LoweringOptions.codeAddress_zero ho]
  | booted ho hk =>
    have hpl : Placed (o.lines sites) 0 (Block.bootstrap 0) :=
      (LoweringOptions.placed_bootstrap ho).1
    have hc : o.codeAddress sites 0 = codeSize (Block.bootstrap 0) :=
      (LoweringOptions.placed_bootstrap ho).2
    obtain ⟨block, ht⟩ := hk.placed (o := o)
    rw [Block.bootstrap_eq, ← hs] at hpl
    rw [Block.bootstrap_eq, codeSize_append] at hc
    obtain ⟨t, hst, htn, htm⟩ := hl.setup hpl.left
    have hcall := hpl.right
    rw [← htn] at hcall
    obtain ⟨u, htu, hun, hum⟩ := hl.call hcall ht
    rw [htn, hs, Nat.zero_add, ← hc, htm] at hum
    exact ⟨u, (hst.trans htu).reaches, hun, hum ▸ .refl _⟩

/-- Behind the last command the machine has left the code. -/
private theorem step?_of_matches_end (hm : Matches o sites v s) (hv : v.next = sites.length) :
    s.step? (image (o.lines sites)) = none := by
  have hn : (image (o.lines sites)).length = s.next := by
    rw [length_image, hm.next, hv, LoweringOptions.codeAddress_length]
  rw [State.step?, List.getElem?_eq_none (Nat.le_of_eq hn)]
  rfl

end

/-- The assembler takes the lines of an accepted program, and the machine does on their code what
the stack machine does on the commands: it comes to every state of a run, it stops when the commands
end, and it goes on for ever when they do. -/
theorem Program.code_runs_as_commands {p : Program} {o : LoweringOptions} {lines : List Line}
    (h : p.lower o = .ok lines) (hp : Linkable o p.sites) (hsize : codeSize lines ≤ 0x8000) :
    assemble? (lines.map Line.text) = some (image lines) ∧
      ∀ v (s : Machine.State), s.next = 0 → Start o p.sites s.memory v →
        (∀ n w, Run o p.sites n v w → ∃ t, s.Reaches (image lines) t ∧ Matches o p.sites w t ∧
          (w.next = p.sites.length → t.step? (image lines) = none)) ∧
        ((∀ n, ∃ w, Run o p.sites n v w) → ∀ n, ∃ t, s.run? (image lines) n = some t) := by
  have hl := Program.linked h hp.unshadowed hsize
  have hr := Program.readable h hp
  obtain ⟨ha, rfl⟩ := Program.acceptable_of_lower h
  refine ⟨assemble?_text hl.distinct hr, fun v s hs hv => ?_⟩
  obtain ⟨t, hst, hm⟩ := matches_of_start hl hv hs
  refine ⟨fun n w hw => ?_, fun forever n => ?_⟩
  · obtain ⟨k, u, hk, hu, -⟩ := hm.run ha hp hl hw
    exact ⟨u, hst.trans ⟨k, hk⟩, hu, step?_of_matches_end hu⟩
  · -- A run long enough for `n` steps of the machine, labels and entries apart.
    obtain ⟨w, hw⟩ := forever (n * (p.sites.length + 1) + p.sites.length)
    obtain ⟨w', hw'⟩ := forever 1
    have hle : v.next ≤ p.sites.length := by
      cases hw' with
      | step _ hstep _ => exact Nat.le_of_lt (lt_length hstep)
    have hwle := next_le_length hw hle
    obtain ⟨j, hj⟩ := hst
    obtain ⟨k, u, hk, -, hn⟩ := hm.run ha hp hl hw
    have hnk : n ≤ k := Nat.le_of_mul_le_mul_right (c := p.sites.length + 1) (by omega) (by omega)
    refine State.exists_run?_of_le (t := u) (n := j + k) ?_ (by omega)
    rw [State.run?_add, hj]
    exact hk

def keepSeven : Program :=
  ⟨[⟨"Main", [⟨1, "push constant 7", .push .constant 7⟩, ⟨2, "pop static 0", .pop .static 0⟩]⟩]⟩

def emptyStack : Machine.State := ⟨0, 0, Memory.store (fun _ => 0) (address .sp) 256, 0⟩

theorem keepSeven_halts :
    ∃ t, emptyStack.Reaches (image ((⟨false, false⟩ : LoweringOptions).lines keepSeven.sites)) t ∧
      t.memory 16 = 7 ∧
      t.step? (image ((⟨false, false⟩ : LoweringOptions).lines keepSeven.sites)) = none := by
  have ha : Acceptable keepSeven.sites := firstRefusal?_nil_eq_none_iff.1 (by decide)
  have h : keepSeven.lower ⟨false, false⟩ = .ok (LoweringOptions.lines _ keepSeven.sites) :=
    Program.lower_eq_ok_iff.2 ⟨ha, rfl⟩
  have hp : Linkable ⟨false, false⟩ keepSeven.sites := by
    refine ⟨by decide, by decide, ?_, by decide, by decide⟩
    intro s hs name count hc
    have hm : s.command ∈ [Command.push .constant 7, .pop .static 0] := List.mem_map_of_mem hs
    rw [hc] at hm
    simp at hm
  have first : StackMachine.Step ⟨false, false⟩ keepSeven.sites ⟨emptyStack.memory, 0⟩
      ⟨emptyStack.memory.push 7, 1⟩ :=
    .push (v := ⟨emptyStack.memory, 0⟩) (g := .constant) (i := 7) rfl rfl
  have second : StackMachine.Step ⟨false, false⟩ keepSeven.sites ⟨emptyStack.memory.push 7, 1⟩
      ⟨(emptyStack.memory.push 7).popTo 16, 2⟩ :=
    .pop (v := ⟨emptyStack.memory.push 7, 1⟩) (g := .static) (i := 0) rfl rfl (by decide)
  have hfirst : Clear keepSeven.sites ⟨emptyStack.memory, 0⟩ := by
    intro s hs x hx
    obtain rfl := Option.some.inj hs
    cases hx
  have hsecond : Clear keepSeven.sites ⟨emptyStack.memory.push 7, 1⟩ := by
    intro s hs x hx
    obtain rfl := Option.some.inj hs
    have hx : x = (emptyStack.memory.push 7).sp - 1 := List.mem_singleton.1 hx
    rw [hx]
    decide
  obtain ⟨-, hruns⟩ := Program.code_runs_as_commands h hp (by decide)
  obtain ⟨t, hst, hm, hend⟩ := (hruns ⟨emptyStack.memory, 0⟩ emptyStack rfl (.plain rfl)).1 2 _
    (.step hfirst first (.step hsecond second .done))
  exact ⟨t, hst, (hm.memory 16 (by decide)).trans (by decide), hend rfl⟩

end StackLowering
