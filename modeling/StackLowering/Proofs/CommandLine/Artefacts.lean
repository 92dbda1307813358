import StackLowering.Proofs.CommandLine.Running
import StackLowering.Proofs.Disk.Extension
/-! What a run leaves that writes the binary form beside the output. The output always stands as it
is lowered. The binary form is read back as the program, unless the output has its extension and so
takes its place, or it would go where the program came from, by a path of the same names. -/
namespace StackLowering.CommandLine
open Disk Disk.Volume

/-- What a finished run leaves that was told to write the binary form too. -/
structure Emitted (o : Options) (j : Job) (v w : Volume) : Prop where
  loaded : HoldsProgram v o.input j.program
  output : w.read j.output = .ok j.bytes
  /-- The binary form takes the place of the output just if that has its extension. -/
  eq_output_iff : j.binary = j.output ↔
    j.output.extension? = some binaryExtension ∧ j.output.stem? ≠ some "."
  /-- It is written by another path than that of the input, and the program is read back from it. -/
  written : j.binary ≠ j.output → j.binary.same o.input = false →
    w.read j.binary = .ok j.program.toBytes ∧ Program.ofBytes j.program.toBytes = .ok j.program
  /-- By the same path nothing is written. -/
  kept : j.binary ≠ j.output → j.binary.same o.input = true → ∀ place entry,
    v.find o.input = .ok (place, entry) → w.find o.input = .ok (place, entry)
  /-- The input is a directory then, or in binary form itself. -/
  origin : j.binary.same o.input = true → (∃ place, v.find o.input = .ok (place, .directory)) ∨
    ∃ bytes, v.read o.input = .ok bytes ∧ Program.ofBytes bytes = .ok j.program
  /-- Where both paths lead to one file, it stays as it is just if they have the same names or it
  holds the bytes that are written. -/
  input_kept_iff : j.binary ≠ j.output → w.locate j.binary = w.locate o.input →
    ∀ bytes, v.read o.input = .ok bytes →
      (w.read o.input = .ok bytes ↔ j.binary.same o.input = true ∨ bytes = j.program.toBytes)

section
variable {o : Options} {j : Job} {v u w : Volume}

private theorem slash_not_mem_binaryExtension : '/' ∉ binaryExtension.toList := by decide

/-- Where the binary form goes, neither the output nor the file beside it is written. -/
private theorem get?_spelled_binary (hu : SameDirectories v u)
    (h : Saves u j.output j.bytes (.ok ()) w) (hne : j.binary ≠ j.output) :
    w.get? (v.spelled j.binary) = u.get? (v.spelled j.binary) := by
  obtain ⟨t, g, ht, hft, hg, hfg, -⟩ := h.get?_of_ok
  obtain ⟨before, hp, -⟩ := pieces_of_target hg hfg.slashed
  obtain ⟨directory, hd⟩ := v.spelled_sibling hp
  have hb := Path.pieces_withExtension hp hfg.name slash_not_mem_binaryExtension
  have hgp : g.place = g.name :: directory := by
    rw [← spelled_eq (hu.symm.locate_of (locate_of_free hg hfg)), hd _ _ hp,
      step_of_isName hfg.name]
  have htp : t.place = (g.name ++ ".tmp") :: directory := by
    rw [← spelled_eq (hu.symm.locate_of (locate_of_free ht hft)), hd _ _ (Path.pieces_draft hp),
      step_of_isName (Path.isName_draft g.name)]
  have hpb : v.spelled j.binary = step directory (Path.renamed g.name binaryExtension) := hd _ _ hb
  have hapart : v.spelled j.binary ≠ g.place ∧ v.spelled j.binary ≠ t.place := by
    rw [hpb, hgp, htp]
    rcases Path.renamed_cases hfg.name binaryExtension with hr | ⟨stem, hr, hstem⟩
    · rw [hr]
      exact ⟨fun h => hfg.name.2 (eq_of_step_eq_cons h).symm,
        fun h => (Path.isName_draft g.name).2 (eq_of_step_eq_cons h).symm⟩
    · rw [step_of_isName (hr ▸ Path.isName_append hstem (by decide))]
      constructor
      · intro h
        rw [(List.cons.inj h).1] at hb
        exact hne (Path.eq_of_pieces (hb.trans hp.symm))
      · intro h
        have hn := (List.cons.inj h).1
        rw [hr] at hn
        have hc := congrArg (fun s : String => s.toList.getLast?) hn
        simp [binaryExtension] at hc
  refine h.get?_eq (fun t' ht' => ?_) fun g' hg' => ?_
  · obtain rfl := Except.ok.inj (ht.symm.trans ht')
    exact hapart.2
  · obtain rfl := Except.ok.inj (hg.symm.trans hg')
    exact hapart.1

private theorem read_binary (he : o.flags.emitBinary = true) (hb : SavesBinary o j v u)
    (h : Saves u j.output j.bytes (.ok ()) w) (hne : j.binary ≠ j.output)
    (hs : j.binary.same o.input = false) : w.read j.binary = .ok j.program.toBytes := by
  have hu := hb.sameDirectories
  cases hb with
  | skipped hk =>
    rw [hk he] at hs
    cases hs
  | written _ _ hb =>
    obtain ⟨t, g, -, -, hg, hfg, hbytes, -⟩ := (saves_of_enact hb).get?_of_ok
    have hl := locate_of_free hg hfg
    have hk := get?_spelled_binary hu h hne
    rw [spelled_eq hl, hbytes] at hk
    exact read_eq_ok_iff.2 ⟨g.place, (hu.trans h.sameDirectories).locate_of hl, hk⟩

private theorem find_input (hb : SavesBinary o j v u) (h : Saves u j.output j.bytes (.ok ()) w)
    (hne : j.binary ≠ j.output) (hs : j.binary.same o.input = true) {place : Place} {entry : Entry}
    (hf : v.find o.input = .ok (place, entry)) : w.find o.input = .ok (place, entry) := by
  have hu := hb.sameDirectories
  obtain ⟨hl, hentry⟩ := find_eq_ok_iff.1 hf
  cases hb with
  | written _ hk =>
    rw [hk] at hs
    cases hs
  | skipped hk =>
    have hk := get?_spelled_binary hu h hne
    rw [spelled_of_same hs, spelled_eq hl, hentry] at hk
    exact find_eq_ok_iff.2 ⟨(hu.trans h.sameDirectories).locate_of hl, hk⟩

/-- Where the binary form would be the input by its path, the input is a directory or in binary form
itself. -/
private theorem origin_of_same {program : Program} {g : Target} (hg : v.target j.output = .ok g)
    (hfg : v.Free g) (h : HoldsProgram v o.input program) (hs : j.binary.same o.input = true) :
    (∃ place, v.find o.input = .ok (place, .directory)) ∨
      ∃ bytes, v.read o.input = .ok bytes ∧ Program.ofBytes bytes = .ok program := by
  cases h with
  | directory hd => exact .inl ⟨_, hd⟩
  | binary _ hr hb => exact .inr ⟨_, hr, hb⟩
  | source _ hx _ =>
    obtain ⟨before, hp, -⟩ := pieces_of_target hg hfg.slashed
    have hb := Path.extension?_withExtension hp hfg.name slash_not_mem_binaryExtension (by decide)
      (by decide)
    rw [← Path.extension?_of_same hs, Job.binary] at hx
    rw [hx] at hb
    exact absurd hb (by decide)

private theorem binary_eq_output_iff {g : Target} (hg : v.target j.output = .ok g)
    (hfg : v.Free g) : j.binary = j.output ↔
      j.output.extension? = some binaryExtension ∧ j.output.stem? ≠ some "." := by
  obtain ⟨before, hp, -⟩ := pieces_of_target hg hfg.slashed
  have hb := Path.pieces_withExtension hp hfg.name slash_not_mem_binaryExtension
  have hr : j.binary = j.output ↔ Path.renamed g.name binaryExtension = g.name := by
    constructor
    · intro he
      rw [← Job.binary, he, hp] at hb
      exact (List.singleton_inj.1 (List.append_cancel_left hb)).symm
    · intro he
      rw [he, ← hp] at hb
      exact Path.eq_of_pieces hb
  rw [hr, Path.renamed_eq_self_iff hfg.name, Path.extension?_eq hp hfg.name, Path.stem?,
    Path.fileName?_eq hp hfg.name, Option.map_some, ne_eq, ne_eq, Option.some.injEq]

/-- A run that succeeds leaves the output as it was lowered, and beside it the binary form, from
which the program is read back. It leaves none where the output itself has the extension of binary
forms, and where the input has the very path of the binary form; the input stays as it is then, but
is written over if the same file is reached by another path: through other steps, that is, since a
volume has no links. It has no permissions and no failures of the system either, and its names are
text. -/
theorem emitted_of_status {arguments : List String} (ha : Addressable v)
    (hh : asksForHelp arguments = false) (ho : Options.ofArguments arguments = .ok o)
    (ht : o.flags.tokens = false) (he : o.flags.emitBinary = true)
    (hs : (runOn arguments v).1.status = 0) :
    ∃ j, o.prepare v = .ok j ∧ Emitted o j v (runOn arguments v).2 := by
  obtain ⟨j, u, hj, hb, h⟩ := finished_of_status hh ho ht hs
  have h := saves_of_enact h
  have hload := ask_load_eq_ok_iff.1 (Options.prepare_eq_ok_iff.1 hj).1
  have hu := hb.sameDirectories
  have hw := hu.trans h.sameDirectories
  obtain ⟨t, g, -, -, hg, hfg, -⟩ := h.get?_of_ok
  have hg := hu.symm.target_of hg
  have hfg := hfg.of_sameDirectories hu.symm
  refine ⟨j, hj, hload, h.read_eq, binary_eq_output_iff hg hfg, fun hne hsame => ?_,
    fun hne hsame place entry hf => find_input hb h hne hsame hf,
    origin_of_same hg hfg hload, fun hne hl bytes hr => ?_⟩
  · have hdecode := Program.ofBytes_toBytes_append (hload.writable ha) []
    rw [List.append_nil] at hdecode
    exact ⟨read_binary he hb h hne hsame, hdecode⟩
  · obtain ⟨place, hplace, hentry⟩ := read_eq_ok_iff.1 hr
    cases hsame : j.binary.same o.input with
    | true =>
      have hf := find_input hb h hne hsame (find_eq_ok_iff.2 ⟨hplace, hentry⟩)
      have hkept := read_eq_ok_iff.2 ⟨place, find_eq_ok_iff.1 hf⟩
      simp [hkept]
    | false =>
      have hbin := read_binary he hb h hne hsame
      obtain ⟨place', hl', hentry'⟩ := read_eq_ok_iff.1 hbin
      have hover := read_eq_ok_iff.2 ⟨place', hl ▸ hl', hentry'⟩
      simp [hover, eq_comm]

end

def addProgram : Program := ⟨[⟨"Main", [⟨1, "", .operate .add⟩]⟩]⟩

def sourceAndPadded : Volume := ⟨[], [(["A.vm"], .file (Text.toBytes "add")),
  (["P.vmb"], .file (addProgram.toBytes ++ [0]))]⟩

private theorem sourceAndPadded_addressable : Addressable sourceAndPadded := by
  refine .of_files (by decide) fun place bytes h => ?_
  simp only [sourceAndPadded, List.mem_cons, List.not_mem_nil, or_false, Prod.mk.injEq,
    Entry.file.injEq] at h
  obtain ⟨-, rfl⟩ | ⟨-, rfl⟩ := h <;> decide +kernel

theorem emitted_beside_source : ∃ program : Program,
    HoldsProgram sourceAndPadded ⟨"A.vm"⟩ program ∧
    (runOn ["A.vm", "--emit-bin"] sourceAndPadded).2.read ⟨"A.vmb"⟩ = .ok program.toBytes ∧
    Program.ofBytes program.toBytes = .ok program := by
  have ho : Options.ofArguments ["A.vm", "--emit-bin"] =
    .ok ⟨⟨"A.vm"⟩, { Flags.default with emitBinary := true }⟩ := by decide
  have hs : (runOn ["A.vm", "--emit-bin"] sourceAndPadded).1.status = 0 := by decide +kernel
  obtain ⟨j, hj, h⟩ := emitted_of_status sourceAndPadded_addressable (by decide) ho rfl rfl hs
  obtain ⟨-, -, -, hout⟩ := Options.prepare_eq_ok_iff.1 hj
  have hb : j.binary = ⟨"A.vmb"⟩ := by
    rw [Job.binary, hout]
    decide +kernel
  have hne : j.binary ≠ j.output := by
    rw [hb, hout]
    decide +kernel
  have hsame : j.binary.same ⟨"A.vm"⟩ = false := by
    rw [hb]
    decide +kernel
  obtain ⟨hr, hd⟩ := h.written hne hsame
  exact ⟨j.program, h.loaded, hb ▸ hr, hd⟩

/-- The binary form goes where the program comes from, and what is there then has other bytes: the
two paths lead to one file, but are not the same. -/
theorem padded_input_rewritten :
    (runOn ["./P.vmb", "-o", "P.asm", "--emit-bin"] sourceAndPadded).1.status = 0 ∧
    sourceAndPadded.locate ((⟨"P.asm"⟩ : Path).withExtension binaryExtension) =
      sourceAndPadded.locate ⟨"./P.vmb"⟩ ∧
    sourceAndPadded.read ⟨"./P.vmb"⟩ = .ok (addProgram.toBytes ++ [0]) ∧
    (runOn ["./P.vmb", "-o", "P.asm", "--emit-bin"] sourceAndPadded).2.read ⟨"./P.vmb"⟩ =
      .ok addProgram.toBytes := by
  decide +kernel

end StackLowering.CommandLine
