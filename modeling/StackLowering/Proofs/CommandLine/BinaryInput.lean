import StackLowering.Proofs.CommandLine.Repeating
/-! A program that was written in binary form and is given to another run. It comes to the same
lines and the same text as the source, under whatever path, if only that is read as an input. -/
namespace StackLowering.CommandLine
open Disk Disk.Volume

section
variable {v w : Volume} {o : Options} {j : Job} {p q : Path}

/-- A file is not started from an entry point unless that is asked for. -/
private theorem defaultBootstrap_of_file {program : Program}
    (hd : ∀ place, v.find p ≠ .ok (place, .directory)) :
    answer v (defaultBootstrap p program) = false := by
  rw [defaultBootstrap, (LawfulAccess.isDirectory p).answer_bind, answer_isDirectory_eq_false hd,
    answer_pure, Bool.false_and]

/-- The binary form of a file's program comes to the job of the file, but for the output. -/
private theorem prepare_of_binary {o' : Options} (hj : o.prepare v = .ok j)
    (hd : ∀ place, v.find o.input ≠ .ok (place, .directory))
    (hb : Program.ofBytes j.program.toBytes = .ok j.program)
    (hx : o'.input.extension? = some binaryExtension)
    (hr : w.read o'.input = .ok j.program.toBytes)
    (ho : o'.flags.output = none) (hboot : o'.flags.bootstrap = o.flags.bootstrap)
    (ha : o'.flags.annotate = o.flags.annotate) (hc : o'.flags.check = o.flags.check) :
    ∃ j', o'.prepare w = .ok j' ∧ j'.lines = j.lines ∧
      j'.output = o'.input.withExtension outputExtension := by
  obtain ⟨place, hf⟩ := read_eq_ok_iff.1 hr
  have hd' := not_directory_of_find (find_eq_ok_iff.2 hf)
  obtain ⟨-, hcheck, hlow, -⟩ := Options.prepare_eq_ok_iff.1 hj
  rw [defaultBootstrap_of_file hd] at hlow
  have hj' : o'.prepare w =
      .ok ⟨j.program, j.lines, o'.input.withExtension outputExtension⟩ := by
    refine Options.prepare_eq_ok_iff.2 ⟨ask_load_eq_ok_iff.2 (.binary hx hr hb), ?_, ?_, ?_⟩
    · rwa [hc]
    · rwa [defaultBootstrap_of_file hd', hboot, ha]
    · rw [defaultOutput_of_file hd', ho, Option.getD_none]
  refine ⟨_, hj', ?_, ?_⟩ <;> dsimp only

structure Gives (arguments : List String) (v : Volume) (r : Outcome) (output : Path)
    (bytes : List UInt8) : Prop where
  outcome : (runOn arguments v).1 = r
  output : (runOn arguments v).2.read output = .ok bytes

/-- A run on the binary form of a file's program gives what the run on the file has given. -/
private theorem gives_of_binary {o' : Options} {arguments : List String} (hj : o.prepare v = .ok j)
    (hd : ∀ place, v.find o.input ≠ .ok (place, .directory))
    (hb : Program.ofBytes j.program.toBytes = .ok j.program)
    (hh : asksForHelp arguments = false) (ho : Options.ofArguments arguments = .ok o')
    (hout : o'.flags.output = none) (ht : o'.flags.tokens = false)
    (hflags : o.flags = { o'.flags with emitBinary := true }) (he : o'.flags.emitBinary = false)
    (hx : o'.input.extension? = some binaryExtension)
    (hr : w.read o'.input = .ok j.program.toBytes)
    (hw : (enact w (writeAtomic (o'.input.withExtension outputExtension) j.bytes)).1 = .ok ()) :
    Gives arguments w (.ofResult (.ok (j.printed o)))
      (o'.input.withExtension outputExtension) j.bytes := by
  obtain ⟨j', hj', hlines, houtput⟩ := prepare_of_binary hj hd hb hx hr hout (by rw [hflags])
    (by rw [hflags]) (by rw [hflags])
  have hbytes : j'.bytes = j.bytes := by rw [Job.bytes, hlines, Job.bytes]
  have hprinted : j'.printed o' = j.printed o := by
    rw [Job.printed, hlines, Job.printed, hflags]
  rw [← houtput, ← hbytes] at hw ⊢
  have hrun : runOn arguments w =
      (.ofResult (.ok (j'.printed o')), (enact w (writeAtomic j'.output j'.bytes)).2) := by
    rw [runOn_of_options hh ho ht, enact_lower, hj']
    dsimp only
    rw [enact_finish_of_written he hw]
  have hsaves := saves_writeAtomic w j'.output j'.bytes
  rw [hw] at hsaves
  rw [← hprinted]
  constructor
  · rw [hrun]
  · rw [hrun]
    exact hsaves.read_eq

/-- Neither an input with an extension nor such words ask for help. -/
private theorem asksForHelp_of_words {words : List String} (hwords : ∀ a ∈ words, a ∈ loweringWords)
    (hp : p.extension? ≠ none ∨ p.text.toList.head? ≠ some '-') :
    asksForHelp (p.text :: words) = false ∧
      asksForHelp (p.text :: words ++ ["--emit-bin"]) = false := by
  have hinput : p.text ≠ "-h" ∧ p.text ≠ "--help" := by
    obtain ⟨text⟩ := p
    constructor <;> rintro rfl <;> revert hp <;> decide
  have hword : ∀ a ∈ words, a ≠ "-h" ∧ a ≠ "--help" := fun a ha =>
    (show ∀ a ∈ loweringWords, a ≠ "-h" ∧ a ≠ "--help" by decide) a (hwords a ha)
  have hwith : ∀ a ∈ words ++ ["--emit-bin"], a ≠ "-h" ∧ a ≠ "--help" :=
    List.forall_mem_append.2 ⟨hword, by decide⟩
  exact ⟨asksForHelp_eq_false (List.forall_mem_cons.2 ⟨hinput, hword⟩),
    asksForHelp_eq_false (List.forall_mem_cons.2 ⟨hinput, hwith⟩)⟩

/-- What a run leaves of a source if it writes the binary form too: the output and the binary form,
and a path to this that is read as that of an input, for which the output is the same. -/
structure Twins (p : Path) (j : Job) (w : Volume) : Prop where
  output : w.Settled (p.withExtension outputExtension) j.bytes
  binary : w.Settled (p.withExtension binaryExtension) j.program.toBytes
  extension : (p.withExtension binaryExtension).extension? = some binaryExtension
  back : (p.withExtension binaryExtension).withExtension outputExtension =
    p.withExtension outputExtension
  dash : (p.withExtension binaryExtension).text.toList.head? = some '-' ↔
    p.text.toList.head? = some '-'

private theorem twins {place : Place} {bytes : List UInt8} (hr : Repeatable o j v w)
    (he : o.flags.emitBinary = true) (ho : j.output = o.input.withExtension outputExtension)
    (hx : o.input.extension? = some sourceExtension)
    (hf : v.find o.input = .ok (place, .file bytes)) : Twins o.input j w := by
  obtain ⟨name, hn, -⟩ := Option.bind_eq_some_iff.1 hx
  obtain ⟨before, -, hp, hname, -⟩ := pieces_of_find_file hf hn
  have houtput := hr.output
  rw [ho] at houtput
  -- Since the output is written, the name is not one that only dots are left of.
  obtain ⟨g, hg, hfg, -⟩ := houtput.goal
  obtain ⟨hdots, -⟩ := name_of_withExtension hp hname (by decide) hg hfg
  have hextension :
      (o.input.withExtension binaryExtension).extension? = some binaryExtension :=
    Path.extension?_withExtension_of_ne hp hname hdots (by decide) (by decide) (by decide)
  have hpath : j.binary = o.input.withExtension binaryExtension := by
    rw [Job.binary, ho, Path.withExtension_withExtension hp hname hdots (by decide) (by decide)
      (by decide) (by decide)]
  have hsame : j.binary.same o.input = false := by
    rw [← Bool.not_eq_true]
    intro hsame
    have hx' := Path.extension?_of_same hsame
    rw [hpath, hextension, hx] at hx'
    exact absurd hx' (by decide)
  exact ⟨houtput, hpath ▸ hr.binary he hsame, hextension,
    Path.withExtension_withExtension hp hname hdots (by decide) (by decide) (by decide)
      (by decide),
    Path.head?_withExtension (by decide) hp hname hdots (by decide)⟩

/-- What a run on a source has come to that writes the binary form too, and how the same words are
read with another input. -/
structure Emission (words : List String) (v : Volume) (o : Options) (j : Job) : Prop where
  job : o.prepare v = .ok j
  outcome : (runOn (o.input.text :: words ++ ["--emit-bin"]) v).1 =
    .ofResult (.ok (j.printed o))
  unit : ∃ u, j.program = ⟨[u]⟩ ∧ u.name = unitName o.input
  decoded : Program.ofBytes j.program.toBytes = .ok j.program
  twins : Twins o.input j (runOn (o.input.text :: words ++ ["--emit-bin"]) v).2
  others : ∀ q : Path, q.text.toList.head? ≠ some '-' → ∃ o' : Options, o'.input = q ∧
    Options.ofArguments (q.text :: words) = .ok o' ∧ o'.flags.output = none ∧
    o'.flags.tokens = false ∧ o'.flags.emitBinary = false ∧
    o.flags = { o'.flags with emitBinary := true }

private theorem exists_emission {words : List String} (ha : Addressable v)
    (hwords : ∀ a ∈ words, a ∈ loweringWords) (hx : p.extension? = some sourceExtension)
    (hd : ∀ place, v.find p ≠ .ok (place, .directory)) (hdash : p.text.toList.head? ≠ some '-')
    (hs : (runOn (p.text :: words ++ ["--emit-bin"]) v).1.status = 0) :
    ∃ o j, o.input = p ∧ Emission words v o j := by
  have hhelp := (asksForHelp_of_words hwords (.inr hdash)).2
  obtain ⟨f, hout, ht, he, hargs⟩ := exists_flags hwords
  -- The options of the run stay opaque from here on, with their flags as an equation.
  obtain ⟨o, hinput, hflags, hoptions⟩ : ∃ o : Options, o.input = p ∧
      o.flags = { f with emitBinary := true } ∧
      Options.ofArguments (p.text :: words ++ ["--emit-bin"]) = .ok o :=
    ⟨_, rfl, rfl, (hargs p.text hdash).2⟩
  have htokens : o.flags.tokens = false := by rw [hflags]; exact ht
  have hnone : o.flags.output = none := by rw [hflags]; exact hout
  subst hinput
  obtain ⟨j, u, hj, hb, h⟩ := finished_of_status hhelp hoptions htokens hs
  have h := saves_of_enact h
  obtain ⟨hload, -, -, houtput⟩ := Options.prepare_eq_ok_iff.1 hj
  rw [hnone, Option.getD_none] at houtput
  have hload := ask_load_eq_ok_iff.1 hload
  obtain ⟨unit, hunit, hprogram⟩ := (holdsProgram_iff_of_source hd hx).1 hload
  have hdecode := Program.ofBytes_toBytes_append (hload.writable ha) []
  rw [List.append_nil] at hdecode
  obtain ⟨hname, bytes, source, hr, -⟩ := hunit
  obtain ⟨place, hf⟩ := read_eq_ok_iff.1 hr
  have htwins := twins (repeatable hload houtput hb h) (by rw [hflags])
    (houtput.trans (defaultOutput_of_file hd)) hx (find_eq_ok_iff.2 hf)
  exact ⟨o, j, rfl, hj, Prepares.outcome_eq ⟨hhelp, hoptions, htokens, hj⟩ hs,
    ⟨unit, hprogram.symm, hname⟩, hdecode, htwins,
    fun q hq => ⟨_, rfl, (hargs q.text hq).1, hout, ht, he, hflags⟩⟩

private theorem Emission.gives {words : List String} (h : Emission words v o j)
    (hwords : ∀ a ∈ words, a ∈ loweringWords)
    (hd : ∀ place, v.find o.input ≠ .ok (place, .directory))
    (hx : q.extension? = some binaryExtension) (hr : w.read q = .ok j.program.toBytes)
    (hw : (enact w (writeAtomic (q.withExtension outputExtension) j.bytes)).1 = .ok ())
    (hdash : q.text.toList.head? ≠ some '-') :
    Gives (q.text :: words) w (runOn (o.input.text :: words ++ ["--emit-bin"]) v).1
      (q.withExtension outputExtension) j.bytes := by
  obtain ⟨o', hinput, hoptions, hout, ht, he, hflags⟩ := h.others q hdash
  subst hinput
  rw [h.outcome]
  exact gives_of_binary h.job hd h.decoded (asksForHelp_of_words hwords (.inr hdash)).1 hoptions
    hout ht hflags he hx hr hw

/-- Where the source of a program was written in binary form as well, runs on that form with the
same words end like the run on the source and give the same output, wherever the form is copied to.
An argument that starts with a dash is no path to it. As on every volume, directories and files with
names that are text are all that there is: no links and permissions, and no write that fails for a
reason of the system. -/
theorem binary_agrees {words : List String} (ha : Addressable v)
    (hwords : ∀ a ∈ words, a ∈ loweringWords) (hx : p.extension? = some sourceExtension)
    (hd : ∀ place, v.find p ≠ .ok (place, .directory))
    (hs : (runOn (p.text :: words ++ ["--emit-bin"]) v).1.status = 0) :
    ∃ output binary u, (runOn (p.text :: words ++ ["--emit-bin"]) v).2.read
        (p.withExtension outputExtension) = .ok output ∧
      (runOn (p.text :: words ++ ["--emit-bin"]) v).2.read
        (p.withExtension binaryExtension) = .ok binary ∧
      Program.ofBytes binary = .ok ⟨[u]⟩ ∧ u.name = unitName p ∧
      Gives ((p.withExtension binaryExtension).text :: words)
        (runOn (p.text :: words ++ ["--emit-bin"]) v).2
        (runOn (p.text :: words ++ ["--emit-bin"]) v).1 (p.withExtension outputExtension) output ∧
      ∀ w q, q.extension? = some binaryExtension → w.read q = .ok binary →
        (enact w (writeAtomic (q.withExtension outputExtension) output)).1 = .ok () →
        q.text.toList.head? ≠ some '-' →
        Gives (q.text :: words) w (runOn (p.text :: words ++ ["--emit-bin"]) v).1
          (q.withExtension outputExtension) output := by
  have hhelp := (asksForHelp_of_words hwords (.inl (by rw [hx]; exact Option.some_ne_none _))).2
  obtain ⟨_, ho⟩ := options_of_status hhelp hs
  have hdash : p.text.toList.head? ≠ some '-' :=
    head?_of_options (fun h => Option.some_ne_none _ (hx.symm.trans h)) ho
  obtain ⟨o, j, rfl, h⟩ := exists_emission ha hwords hx hd hdash hs
  obtain ⟨u, hu, hname⟩ := h.unit
  have htwins := h.twins
  have hrewrite : (enact (runOn (o.input.text :: words ++ ["--emit-bin"]) v).2
      (writeAtomic ((o.input.withExtension binaryExtension).withExtension outputExtension)
        j.bytes)).1 = .ok () := by
    rw [htwins.back]
    exact (htwins.output.saves (saves_writeAtomic _ _ _)).1
  have hemitted := h.gives hwords hd htwins.extension htwins.binary.read_eq hrewrite
    (mt htwins.dash.1 hdash)
  rw [htwins.back] at hemitted
  exact ⟨j.bytes, j.program.toBytes, u, htwins.output.read_eq, htwins.binary.read_eq,
    h.decoded.trans (congrArg Except.ok hu), hname, hemitted,
    fun w q hxq hr hw hq => h.gives hwords hd hxq hr hw hq⟩

end

/-- The program `add` in a unit `P`, with the text of its line. -/
def addBinary : List UInt8 := [1, 1, 0x50, 1, 1, 3, 0x61, 0x64, 0x64, 2, 0]

/-- The source, and the binary form under two names, one of which starts with a dash. -/
def sourceWithCopies : Volume := ⟨[], [(["P.vm"], .file (Text.toBytes "add")),
  (["Q.vmb"], .file addBinary), (["-P.vmb"], .file addBinary)]⟩

private theorem sourceWithCopies_addressable : Addressable sourceWithCopies := by
  refine .of_files (by decide) fun place bytes h => ?_
  simp only [sourceWithCopies, List.mem_cons, List.not_mem_nil, or_false, Prod.mk.injEq,
    Entry.file.injEq] at h
  obtain ⟨-, rfl⟩ | ⟨-, rfl⟩ | ⟨-, rfl⟩ := h <;> decide +kernel

theorem copies_agree : ∃ r w output,
    runOn ["P.vm", "--listing", "--emit-bin"] sourceWithCopies = (r, w) ∧ r.status = 0 ∧
    w.read ⟨"P.asm"⟩ = .ok output ∧
    Gives ["P.vmb", "--listing"] w r ⟨"P.asm"⟩ output ∧
    Gives ["Q.vmb", "--listing"] w r ⟨"Q.asm"⟩ output := by
  let first := runOn ["P.vm", "--listing", "--emit-bin"] sourceWithCopies
  have hs : first.1.status = 0 := by decide +kernel
  have hout : (⟨"P.vm"⟩ : Path).withExtension outputExtension = ⟨"P.asm"⟩ := by decide +kernel
  have hbin : (⟨"P.vm"⟩ : Path).withExtension binaryExtension = ⟨"P.vmb"⟩ := by decide +kernel
  have hcopy : (⟨"Q.vmb"⟩ : Path).withExtension outputExtension = ⟨"Q.asm"⟩ := by
    decide +kernel
  have hfile : sourceWithCopies.find ⟨"P.vm"⟩ = .ok (["P.vm"], .file (Text.toBytes "add")) := by
    decide +kernel
  have hwords : ∀ a ∈ ["--listing"], a ∈ loweringWords := by decide
  obtain ⟨output, binary, -, ho, hb, -, -, h, hw⟩ := binary_agrees sourceWithCopies_addressable
    hwords (by decide +kernel) (not_directory_of_find hfile) hs
  rw [hout] at ho h
  rw [hbin] at hb h
  refine ⟨first.1, first.2, output, rfl, hs, ho, h, ?_⟩
  have hread : first.2.read ⟨"Q.vmb"⟩ = first.2.read ⟨"P.vmb"⟩ := by decide +kernel
  have htext : first.2.read ⟨"P.asm"⟩ =
    .ok (Text.toBytes "@SP\nAM=M-1\nD=M\nA=A-1\nM=M+D\n") := by decide +kernel
  obtain rfl := Except.ok.inj (ho.symm.trans htext)
  rw [← hcopy]
  exact hw _ _ (by decide +kernel) (hread.trans hb) (by decide +kernel) (by decide)

/-- An argument that starts with a dash is an option, also where a binary form has that name. -/
theorem dash_is_option :
    (runOn ["P.vm", "--emit-bin"] sourceWithCopies).1.status = 0 ∧
    (⟨"-P.vmb"⟩ : Path).extension? = some binaryExtension ∧
    (runOn ["P.vm", "--emit-bin"] sourceWithCopies).2.read ⟨"P.vmb"⟩ = .ok addBinary ∧
    (runOn ["P.vm", "--emit-bin"] sourceWithCopies).2.read ⟨"-P.vmb"⟩ = .ok addBinary ∧
    (enact (runOn ["P.vm", "--emit-bin"] sourceWithCopies).2
      (writeAtomic ⟨"-P.asm"⟩ (Text.toBytes "@SP\nAM=M-1\nD=M\nA=A-1\nM=M+D\n"))).1 = .ok () ∧
    (runOn ["-P.vmb"] (runOn ["P.vm", "--emit-bin"] sourceWithCopies).2).1.status = 1 := by
  decide +kernel

end StackLowering.CommandLine
