import StackLowering.Proofs.CommandLine.Arguments
import StackLowering.Proofs.CommandLine.Running
import StackLowering.Proofs.Program.Reloading
/-! Runs that write where the input says. What they write never has the name of a source nor that
of an input in binary form, so that the same run again reads the same and finds all written. -/
namespace StackLowering.CommandLine
open Disk Disk.Volume

/-- Whether a name is one that a file with this ending is written under, at first or at last. -/
def Written (ending name : String) : Prop :=
  ∃ stem, name = stem ++ ending ∨ name = stem ++ (ending ++ ".tmp")

def outputEnding : String := "." ++ outputExtension
def binaryEnding : String := "." ++ binaryExtension

section
variable {v u w : Volume} {p : Path} {o : Options} {j : Job} {name ending : String}

/-- Texts with ends of which neither ends the other are different. -/
private theorem append_ne {a b x y : String} (hx : ¬x.toList <:+ y.toList)
    (hy : ¬y.toList <:+ x.toList) : a ++ x ≠ b ++ y := fun h => by
  have ht : a.toList ++ x.toList = b.toList ++ y.toList := by
    rw [← String.toList_append, h, String.toList_append]
  rcases List.suffix_or_suffix_of_suffix (List.suffix_append a.toList x.toList)
    (ht ▸ List.suffix_append b.toList y.toList) with hs | hs
  · exact hx hs
  · exact hy hs

private theorem Written.ne {other : String} (h : Written outputEnding name)
    (h' : Written binaryEnding other) : name ≠ other := by
  obtain ⟨stem, rfl | rfl⟩ := h <;> obtain ⟨stem', rfl | rfl⟩ := h' <;>
    exact append_ne (by decide) (by decide)

private theorem isSourceName_of_written
    (h : Written outputEnding name ∨ Written binaryEnding name) : isSourceName name = false := by
  rw [← Bool.not_eq_true, isSourceName_iff]
  rintro ⟨stem, rfl⟩
  rw [String.append_assoc] at h
  rcases h with ⟨stem', h | h⟩ | ⟨stem', h | h⟩ <;> exact append_ne (by decide) (by decide) h

/-- Where the name of a file has an ending, all that is written for it has. -/
private theorem written_of_target {g t : Target} (hg : v.target p = .ok g) (hf : v.Free g)
    (hn : ∃ stem, g.name = stem ++ ending)
    (ht : v.target p = .ok t ∨ v.target p.draft = .ok t) : Written ending t.name := by
  obtain ⟨stem, hn⟩ := hn
  rcases ht with ht | ht
  · obtain rfl := Except.ok.inj (hg.symm.trans ht)
    exact ⟨stem, .inl hn⟩
  · rw [target_draft ht hg hf, hn]
    exact ⟨stem, .inr (String.append_assoc ..)⟩

/-- The output without an option has the ending of outputs. -/
private theorem output_ending {program : Program} (hp : HoldsProgram v p program) {g : Target}
    (hg : v.target (answer v (defaultOutput p)) = .ok g) (hf : v.Free g) :
    ∃ stem, g.name = stem ++ outputEnding := by
  have file {place : Place} {bytes : List UInt8} {extension : String}
      (hx : p.extension? = some extension) (hb : v.find p = .ok (place, .file bytes)) :
      ∃ stem, g.name = stem ++ outputEnding := by
    rw [Path.extension?, Option.bind_eq_some_iff] at hx
    obtain ⟨name, hn, hx⟩ := hx
    obtain ⟨before, directory, hpieces, hname, -⟩ := pieces_of_find_file hb hn
    rw [defaultOutput_of_file (not_directory_of_find hb)] at hg
    obtain ⟨-, hname⟩ := name_of_withExtension hpieces hname (by decide) hg hf
    exact ⟨_, hname.trans (String.append_assoc ..)⟩
  cases hp with
  | @directory place names units hd =>
    obtain ⟨hl, -⟩ := find_eq_ok_iff.1 hd
    obtain ⟨s, hs, -⟩ := locate_eq_ok_iff.1 hl
    rw [defaultOutput_of_directory hd, String.append_assoc] at hg
    obtain ⟨front, hfront, -⟩ := pieces_of_target hg hf.slashed
    obtain ⟨before, hj, -⟩ := Path.pieces_join (start_eq_ok_iff.1 hs).2.1 _
    obtain ⟨inner, last, hi⟩ := Path.exists_pieces ⟨place.head?.getD "out"⟩
    have he : Path.pieces ⟨place.head?.getD "out" ++ outputEnding⟩ =
      inner ++ [last ++ outputEnding] := Path.pieces_extend hi (by decide)
    rw [hj, ← outputEnding, he, ← List.append_assoc] at hfront
    obtain ⟨-, hname⟩ := List.append_inj' hfront rfl
    exact ⟨last, (List.cons.inj hname).1.symm⟩
  | source hd hx hu =>
    obtain ⟨-, bytes, source, hr, -⟩ := hu
    obtain ⟨place, hr⟩ := read_eq_ok_iff.1 hr
    exact file hx (find_eq_ok_iff.2 hr)
  | binary hx hr hb =>
    obtain ⟨place, hr⟩ := read_eq_ok_iff.1 hr
    exact file hx (find_eq_ok_iff.2 hr)

/-- The binary form of an input in binary form would go by the path of the input. -/
private theorem binary_same_input {place : Place} {bytes : List UInt8} {g : Target}
    (hx : o.input.extension? = some binaryExtension)
    (hi : v.find o.input = .ok (place, .file bytes))
    (ho : j.output = answer v (defaultOutput o.input)) (hg : v.target j.output = .ok g)
    (hf : v.Free g) : j.binary.same o.input = true := by
  rw [defaultOutput_of_file (not_directory_of_find hi)] at ho
  rw [ho] at hg
  rw [Path.extension?, Option.bind_eq_some_iff] at hx
  obtain ⟨name, hn, hx⟩ := hx
  obtain ⟨before, directory, hp, hname, -⟩ := pieces_of_find_file hi hn
  obtain ⟨hdots, -⟩ := name_of_withExtension hp hname (by decide) hg hf
  rw [Job.binary, ho, Path.withExtension_withExtension hp hname hdots (by decide) (by decide)
    (by decide) (by decide), Path.withExtension_self hp hname hx hdots (by decide)]
  exact Path.same_iff.2 ⟨rfl, rfl⟩

/-- An input in binary form has the name of one. -/
private theorem binary_input_ending {place : Place} {bytes : List UInt8}
    (hx : p.extension? = some binaryExtension) (hi : v.find p = .ok (place, .file bytes)) :
    ∃ name directory, place = name :: directory ∧ Written binaryEnding name := by
  rw [Path.extension?, Option.bind_eq_some_iff] at hx
  obtain ⟨name, hn, hx⟩ := hx
  obtain ⟨-, directory, -, -, rfl⟩ := pieces_of_find_file hi hn
  exact ⟨name, directory, rfl, _, .inl ((Path.eq_of_splitName hx).trans (String.append_assoc ..))⟩

/-- The binary form has its own ending. -/
private theorem binary_ending {g b : Target} (hg : v.target j.output = .ok g) (hf : v.Free g)
    (hb : v.target j.binary = .ok b) (hfb : v.Free b) : ∃ stem, b.name = stem ++ binaryEnding := by
  obtain ⟨before, hp, -⟩ := pieces_of_target hg hf.slashed
  obtain ⟨-, hname⟩ := name_of_withExtension hp hf.name (by decide) hb hfb
  exact ⟨_, hname.trans (String.append_assoc ..)⟩

/-- What a run prints that succeeds. -/
theorem Prepares.outcome_eq {arguments : List String} (h : Prepares arguments v o j)
    (hs : (runOn arguments v).1.status = 0) :
    (runOn arguments v).1 = .ofResult (.ok (j.printed o)) := by
  obtain ⟨r, hr, hfin⟩ := h.finishes
  rw [hr] at hs ⊢
  obtain ⟨out, rfl⟩ := Outcome.status_ofResult_eq_zero_iff.1 hs
  cases hfin
  rfl

/-- Where a job is finished, finishing it again prints the same and changes nothing. -/
private theorem enact_finish_of_settled (ho : v.Settled j.output j.bytes)
    (hb : o.flags.emitBinary = true → j.binary.same o.input = false →
      v.Settled j.binary j.program.toBytes) :
    (enact v (o.finish j)).1 = .ok (j.printed o) ∧ v.Same (enact v (o.finish j)).2 := by
  have hfin := finishes_finish o j v
  have after {u : Volume} (h : SavesBinary o j v u) : v.Same u := by
    cases h with
    | skipped => exact .refl v
    | written he hs h => exact ((hb he hs).saves (saves_of_enact h)).2
  generalize (enact v (o.finish j)).1 = r at hfin ⊢
  generalize (enact v (o.finish j)).2 = w at hfin ⊢
  cases hfin with
  | binaryFailed he hs h => cases ((hb he hs).saves (saves_of_enact h)).1
  | outputFailed h h' => cases ((ho.of_same (after h)).saves (saves_of_enact h')).1
  | finished h h' =>
    exact ⟨rfl, (after h).trans ((ho.of_same (after h)).saves (saves_of_enact h')).2⟩

/-- Writing under such names leaves the sources. -/
private theorem kept_of_written {bytes : List UInt8} {r : Except Fault Unit}
    (h : Saves v p bytes r w)
    (hn : ∀ t, v.target p = .ok t ∨ v.target p.draft = .ok t →
      Written outputEnding t.name ∨ Written binaryEnding t.name) :
    w.kept isSourcePlace = v.kept isSourcePlace :=
  h.kept_eq (fun t ht _ => isSourceName_of_written (hn t (.inr ht)))
    fun t ht _ => isSourceName_of_written (hn t (.inl ht))

private theorem place_ne {t t' : Target} (h : t.name ≠ t'.name) : t.place ≠ t'.place :=
  fun hp => h (List.cons.inj hp).1

/-- What a run leaves that has written where the input says: its sources and its input, and all that
the same run would write. -/
structure Repeatable (o : Options) (j : Job) (v w : Volume) : Prop where
  sources : SameSources v w
  input : ∀ place bytes, v.find o.input = .ok (place, .file bytes) →
    w.find o.input = .ok (place, .file bytes)
  output : w.Settled j.output j.bytes
  binary : o.flags.emitBinary = true → j.binary.same o.input = false →
    w.Settled j.binary j.program.toBytes

theorem repeatable (hp : HoldsProgram v o.input j.program)
    (ho : j.output = answer v (defaultOutput o.input)) (hb : SavesBinary o j v u)
    (h : Saves u j.output j.bytes (.ok ()) w) : Repeatable o j v w := by
  have hu := hb.sameDirectories
  obtain ⟨-, g, -, -, hg, hfg, -, -⟩ := h.get?_of_ok
  have hgv := hu.symm.target_of hg
  have hfv := hfg.of_sameDirectories hu.symm
  have output {t : Target} (ht : u.target j.output = .ok t ∨ u.target j.output.draft = .ok t) :
      Written outputEnding t.name :=
    written_of_target hg hfg (output_ending hp (ho ▸ hgv) hfv) ht
  have binary (hs : Saves v j.binary j.program.toBytes (.ok ()) u) {t : Target}
      (ht : v.target j.binary = .ok t ∨ v.target j.binary.draft = .ok t) :
      Written binaryEnding t.name := by
    obtain ⟨-, b, -, -, hb, hfb, -, -⟩ := hs.get?_of_ok
    exact written_of_target hb hfb (binary_ending hgv hfv hb hfb) ht
  have hkept : v.kept isSourcePlace = w.kept isSourcePlace := by
    rw [kept_of_written h fun t ht => .inl (output ht)]
    cases hb with
    | skipped => rfl
    | written _ _ hs =>
      have hs := saves_of_enact hs
      exact (kept_of_written hs fun t ht => .inr (binary hs ht)).symm
  have hsources : SameSources v w := ⟨hu.trans h.sameDirectories, hkept⟩
  refine ⟨hsources, fun place bytes hf => ?_, h.settled, fun he hs => ?_⟩
  · rcases hp.extension?_of_file hf with hx | hx
    · exact hsources.find_of hx hf
    · obtain rfl : u = v := hb.eq_of_same (binary_same_input hx hf ho hgv hfv)
      obtain ⟨name, directory, rfl, hname⟩ := binary_input_ending hx hf
      have apart {t : Target} (ht : u.target j.output = .ok t ∨ u.target j.output.draft = .ok t) :
          name :: directory ≠ t.place := fun hp =>
        (output ht).ne hname (List.cons.inj hp).1.symm
      obtain ⟨hl, he⟩ := find_eq_ok_iff.1 hf
      refine find_eq_ok_iff.2 ⟨hsources.locate_of hl, ?_⟩
      rw [h.get?_eq (fun t ht => apart (.inr ht)) fun t ht => apart (.inl ht), he]
  · cases hb with
    | skipped hk =>
      rw [hk he] at hs
      cases hs
    | written _ _ hb =>
      have hb := saves_of_enact hb
      exact hb.settled.of_saves h
        (fun t t' ht ht' =>
          place_ne ((output ht').ne (binary hb (.inr (hu.symm.target_of ht)))).symm)
        fun t t' ht ht' =>
          place_ne ((output ht').ne (binary hb (.inl (hu.symm.target_of ht)))).symm

private theorem answer_isDirectory_of (h : SameDirectories v w) (p : Path) :
    answer w (Access.isDirectory p) = answer v (Access.isDirectory p) := by
  rw [Bool.eq_iff_iff, answer_isDirectory, answer_isDirectory]
  exact ⟨fun ⟨place, hd⟩ => ⟨place, h.symm.find_directory hd⟩,
    fun ⟨place, hd⟩ => ⟨place, h.find_directory hd⟩⟩

private theorem answer_defaultBootstrap_of (h : SameDirectories v w) (p : Path)
    (program : Program) :
    answer w (defaultBootstrap p program) = answer v (defaultBootstrap p program) := by
  rw [defaultBootstrap, (LawfulAccess.isDirectory p).answer_bind,
    (LawfulAccess.isDirectory p).answer_bind,
    answer_isDirectory_of h, answer_pure, answer_pure]

private theorem answer_defaultOutput_of (h : SameDirectories v w) (p : Path) :
    answer w (defaultOutput p) = answer v (defaultOutput p) := by
  by_cases hd : ∃ place, v.find p = .ok (place, .directory)
  · obtain ⟨place, hd⟩ := hd
    rw [defaultOutput_of_directory hd, defaultOutput_of_directory (h.find_directory hd)]
  · have hd : ∀ place, v.find p ≠ .ok (place, .directory) := fun place h => hd ⟨place, h⟩
    rw [defaultOutput_of_file hd,
      defaultOutput_of_file fun place hw => hd place (h.symm.find_directory hw)]

/-- The same run comes to the same job. -/
private theorem Repeatable.prepare_eq (h : Repeatable o j v w) (hj : o.prepare v = .ok j) :
    o.prepare w = .ok j := by
  rw [Options.prepare_eq_ok_iff, ask_load_eq_ok_iff] at hj ⊢
  obtain ⟨hl, hc, hlow, hout⟩ := hj
  have hs := h.sources.toSameDirectories
  rw [answer_defaultBootstrap_of hs, answer_defaultOutput_of hs]
  exact ⟨h.sources.holdsProgram_of h.input hl, hc, hlow, hout⟩

/-- A run that succeeds and names no output changes no file with the name of a source, nor the file
that it is given. The same run again ends in the same way, and leaves the volume as the first one
has left it. That is said of a volume, on which two paths lead to one file only if they name the
same place: all names are text, and there are no links, nor permissions that would bar a second run
from what the first has written. -/
theorem run_repeats {arguments : List String} (ho : "-o" ∉ arguments)
    (ho' : "--output" ∉ arguments) (hs : (runOn arguments v).1.status = 0) :
    (∀ stem directory, (runOn arguments v).2.get? ((stem ++ "." ++ sourceExtension) :: directory) =
      v.get? ((stem ++ "." ++ sourceExtension) :: directory)) ∧
    (∀ o, Options.ofArguments arguments = .ok o → ∀ place bytes,
      v.find o.input = .ok (place, .file bytes) →
      (runOn arguments v).2.find o.input = .ok (place, .file bytes)) ∧
    (runOn arguments (runOn arguments v).2).1 = (runOn arguments v).1 ∧
    (runOn arguments v).2.Same (runOn arguments (runOn arguments v).2).2 := by
  by_cases hp : ∃ o j, Prepares arguments v o j
  · obtain ⟨o, j, hp⟩ := hp
    obtain ⟨j', u, hj, hb, h⟩ := finished_of_status hp.help hp.options hp.tokens hs
    obtain rfl := Except.ok.inj (hp.job.symm.trans hj)
    obtain ⟨hload, -, -, hout⟩ := Options.prepare_eq_ok_iff.1 hj
    rw [output_of_options hp.options ho ho', Option.getD_none] at hout
    have hr := repeatable (ask_load_eq_ok_iff.1 hload) hout hb (saves_of_enact h)
    obtain ⟨hprint, hsame⟩ := enact_finish_of_settled hr.output hr.binary
    have hsecond : runOn arguments (runOn arguments v).2 =
        (.ofResult (enact (runOn arguments v).2 (o.finish j)).1,
          (enact (runOn arguments v).2 (o.finish j)).2) := by
      rw [runOn_of_options hp.help hp.options hp.tokens, enact_lower, hr.prepare_eq hj]
    refine ⟨fun stem directory => ?_, fun o' ho place bytes hf => ?_, ?_, ?_⟩
    · have hplace : isSourcePlace ((stem ++ "." ++ sourceExtension) :: directory) = true :=
        isSourceName_iff.2 ⟨stem, rfl⟩
      exact (get?_of_kept hr.sources.kept hplace).symm
    · obtain rfl := Except.ok.inj (hp.options.symm.trans ho)
      exact hr.input place bytes hf
    · rw [hsecond, hprint, hp.outcome_eq hs]
    · rw [hsecond]
      exact hsame
  · have hv := runOn_of_unprepared fun o j hj => hp ⟨o, j, hj⟩
    rw [hv]
    refine ⟨fun _ _ => rfl, fun _ _ _ _ hf => hf, rfl, ?_⟩
    rw [hv]
    exact .refl v

end

def paddedBinary : Volume :=
  ⟨[], [(["P.vmb"], .file [1, 1, 0x50, 1, 1, 3, 0x61, 0x64, 0x64, 2, 0, 0])]⟩

theorem padded_input_repeats : (runOn ["P.vmb", "--emit-bin"] paddedBinary).1.status = 0 ∧
    (runOn ["P.vmb", "--emit-bin"] paddedBinary).2.find ⟨"P.vmb"⟩ = paddedBinary.find ⟨"P.vmb"⟩ ∧
    (runOn ["P.vmb", "--emit-bin"] (runOn ["P.vmb", "--emit-bin"] paddedBinary).2).1 =
      (runOn ["P.vmb", "--emit-bin"] paddedBinary).1 ∧
    (runOn ["P.vmb", "--emit-bin"] paddedBinary).2.Same
      (runOn ["P.vmb", "--emit-bin"] (runOn ["P.vmb", "--emit-bin"] paddedBinary).2).2 := by
  have hs : (runOn ["P.vmb", "--emit-bin"] paddedBinary).1.status = 0 := by decide +kernel
  have ho : Options.ofArguments ["P.vmb", "--emit-bin"] =
    .ok ⟨⟨"P.vmb"⟩, { Flags.default with emitBinary := true }⟩ := by decide
  have hf : paddedBinary.find ⟨"P.vmb"⟩ =
    .ok (["P.vmb"], .file [1, 1, 0x50, 1, 1, 3, 0x61, 0x64, 0x64, 2, 0, 0]) := by decide +kernel
  obtain ⟨-, hinput, hrepeat⟩ := run_repeats (by decide) (by decide) hs
  exact ⟨hs, (hinput _ ho _ _ hf).trans hf.symm, hrepeat⟩

end StackLowering.CommandLine
