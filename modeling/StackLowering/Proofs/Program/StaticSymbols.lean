import StackLowering.Proofs.Program.Directory
import StackLowering.Proofs.Program.OutputGrammar
/-! Static variables of a loaded program. Their symbols begin with the name of a unit, which is
taken from the name of a file or from the bytes of one as it is; no other name gets into the output
without a check. -/
namespace StackLowering
open Assembly Disk Disk.Volume

section
variable {v : Volume} {path : Path} {p : Program} {o : LoweringOptions} {lines : List Line}

/-- Where the names of the units of a loaded program come from. -/
private theorem HoldsProgram.unit_names (h : HoldsProgram v path p) :
    (∀ u ∈ p.units, ∃ q : Path, q.extension? = some sourceExtension ∧
        (q = path ∨ ∃ name, q = path.join name) ∧ u.name = unitName q) ∨
      ∃ bytes, v.read path = .ok bytes ∧ Program.ofBytes bytes = .ok p := by
  cases h with
  | @directory _ names units _ _ _ hu =>
    refine .inl fun u hm => ?_
    obtain ⟨q, hq, hf⟩ := exists_holdsUnit hu hm
    obtain ⟨hq, hx⟩ := List.mem_filter.1 (List.mem_of_mem_filter hq)
    obtain ⟨name, -, hj⟩ := List.mem_map.1 hq
    exact ⟨q, eq_of_beq hx, .inr ⟨name, hj.symm⟩, hf.name⟩
  | source _ hx hu =>
    refine .inl fun u hm => ?_
    rw [List.mem_singleton.1 hm]
    exact ⟨path, hx, .inl rfl, hu.name⟩
  | binary _ hr hb => exact .inr ⟨_, hr, hb⟩

/-- The places of commands that use a static variable are those of the units. -/
private theorem Program.forall_static_sites_iff {P : String → Prop} :
    (∀ s ∈ p.sites, s.static?.isSome = true → P s.unit) ↔
      ∀ u ∈ p.units, (∃ l ∈ u.commands, ∃ i, l.command = .push .static i ∨
        l.command = .pop .static i) → P u.name := by
  constructor
  · rintro h u hu ⟨l, hl, i, hc⟩
    obtain ⟨s, hs, rfl⟩ := u.exists_site hl
    rw [← unit_of_mem_sites hs]
    refine h s (List.mem_flatMap.2 ⟨u, hu, hs⟩) ?_
    have hc : s.command = .push .static i ∨ s.command = .pop .static i := hc
    rw [Site.static?]
    rcases hc with hc | hc <;> rw [hc] <;> rfl
  · intro h s hs hv
    obtain ⟨u, hu, hs⟩ := List.mem_flatMap.1 hs
    rw [unit_of_mem_sites hs]
    refine h u hu ⟨s.located, ?_, ?_⟩
    · obtain ⟨k, hk, rfl⟩ := List.mem_mapIdx.1 hs
      exact List.getElem_mem hk
    · show ∃ i, s.command = _ ∨ s.command = _
      rw [Site.static?] at hv
      split at hv
      · next i hc => exact ⟨i, .inl hc⟩
      · next i hc => exact ⟨i, .inr hc⟩
      · cases hv

/-- Every name in the output of a loaded program is a symbol, but for static variables: theirs are
symbols just if the units that use one have names that can be the front of a symbol. The name of a
unit is that of its file without the extension, whatever it is, or the one in the bytes. -/
theorem loaded_static_symbols_iff (hp : ask v (load path) = .ok p) (h : p.lower o = .ok lines) :
    (∀ line ∈ lines, ∀ name, line.named? = some name →
      isSymbol name = true ∨ ∃ unit i, line = .address (.static unit i)) ∧
    ((∀ unit i, .address (.static unit i) ∈ lines →
        isSymbol (Symbol.static unit i).text = true) ↔
      ∀ u ∈ p.units, (∃ l ∈ u.commands, ∃ i, l.command = .push .static i ∨
        l.command = .pop .static i) → isSymbolFront u.name = true) ∧
    ((∀ u ∈ p.units, ∃ q : Path, q.extension? = some sourceExtension ∧
        (q = path ∨ ∃ name, q = path.join name) ∧ u.name = unitName q) ∨
      ∃ bytes, v.read path = .ok bytes ∧ Program.ofBytes bytes = .ok p) := by
  refine ⟨fun line hl name hn => Program.isSymbol_named_or_static h hl hn, ?_, ?_⟩
  · rw [Program.isSymbol_statics_iff h]
    exact Program.forall_static_sites_iff (P := fun unit => isSymbolFront unit = true)
  · exact (ask_load_eq_ok_iff.1 hp).unit_names

end

def staticIn (name : String) : Volume :=
  ⟨[], [([name ++ ".vm"], .file (Text.toBytes "push static 0"))]⟩

def staticProgram (name : String) : Program :=
  ⟨[⟨name, [⟨1, "push static 0", .push .static 0⟩]⟩]⟩

theorem staticIn_main_symbol : ∃ lines,
    ask (staticIn "Main") (load ⟨"Main.vm"⟩) = .ok (staticProgram "Main") ∧
      (staticProgram "Main").lower ⟨false, false⟩ = .ok lines ∧
      .address (.static "Main" 0) ∈ lines ∧
      isSymbol (Symbol.static "Main" 0).text = true := by
  have hp : ask (staticIn "Main") (load ⟨"Main.vm"⟩) = .ok (staticProgram "Main") := by
    decide +kernel
  have h : (staticProgram "Main").lower ⟨false, false⟩ = .ok _ :=
    Program.lower_of_accepted (by decide)
  have hm : .address (.static "Main" 0) ∈
      (⟨false, false⟩ : LoweringOptions).lines (staticProgram "Main").sites := by decide
  obtain ⟨-, hstatics, -⟩ := loaded_static_symbols_iff hp h
  refine ⟨_, hp, h, hm, hstatics.2 (fun u hu _ => ?_) _ _ hm⟩
  obtain rfl := List.mem_singleton.1 hu
  decide

/-- A minus sign in the name of a file comes into the output, where no symbol may have one. -/
theorem staticIn_minus_no_symbol : ∃ lines,
    ask (staticIn "A-B") (load ⟨"A-B.vm"⟩) = .ok (staticProgram "A-B") ∧
      (staticProgram "A-B").lower ⟨false, false⟩ = .ok lines ∧
      .address (.static "A-B" 0) ∈ lines ∧ "@A-B.0" ∈ lines.map Line.text ∧
      isSymbol (Symbol.static "A-B" 0).text = false := by
  have h : (staticProgram "A-B").lower ⟨false, false⟩ = .ok _ :=
    Program.lower_of_accepted (by decide)
  exact ⟨_, by decide +kernel, h, by decide, by decide, by decide⟩

end StackLowering
