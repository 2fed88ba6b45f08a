import ClassTree.Proofs.Code.Operands
import ClassTree.Proofs.Code.Widening

namespace ClassTree

namespace Instruction

variable {ι ι' : Type}

theorem Canonical.mapLabels {insn : Instruction ι} (h : insn.Canonical) (f : ι → ι') :
    (insn.mapLabels f).Canonical := by
  cases insn with
  | tableSwitch low high default targets =>
    simpa [Instruction.mapLabels, Canonical] using h
  | _ => exact h

theorem linked_mapLabels {b : Pool.Builder} {insn : Instruction ι} (f : ι → ι') :
    (insn.mapLabels f).Linked b ↔ insn.Linked b := by
  cases insn <;> exact Iff.rfl

theorem linked_of_isMarker {b : Pool.Builder} {insn : Instruction ι} (h : insn.isMarker = true) :
    insn.Linked b := by
  cases insn with
  | invokeDynamic => cases h
  | _ => trivial

end Instruction

namespace Code

open Pool Build

variable {b : Builder} {offsets : Offsets} {labels : LabelOffsets}

structure Written (b : Builder) (offsets : Offsets) (labels : LabelOffsets)
    (entry : Instruction Label × Nat) (part : Bytes) : Prop where
  encodes : Yields (encodeInstruction (offsets.getD entry.2 0) (entry.1.mapLabels labels.at)) b
    part b
  size : Yields (size (offsets.getD entry.2 0) entry.1) b part.length b
  next : offsets.getD (entry.2 + 1) 0 = offsets.getD entry.2 0 + part.length
  short : offsets.getD entry.2 0 ≤ maxLength
  canonical : entry.1.Canonical
  reaches : Reaches (offsets.getD entry.2 0) (entry.1.mapLabels labels.at)

/-- What elements with their indices are read as, with their offsets. -/
def readBack (offsets : Offsets) (labels : LabelOffsets)
    (entries : List (Instruction Label × Nat)) :
    List (Nat × Instruction Nat) :=
  (entries.filter fun entry => !entry.1.isMarker).map fun entry =>
    (offsets.getD entry.2 0, normal (entry.1.mapLabels labels.at))

theorem run_readInstructions {table : Table} {found : List (Nat × Instruction Nat)} {bound : Nat}
    {cursor : Cursor} (h : cursor.rest ≠ []) :
    (readInstructions table found (bound + 1)).run cursor =
      ((readInstruction table cursor.position).run cursor >>= fun outcome =>
        (readInstructions table ((cursor.position, outcome.1) :: found) bound).run outcome.2) := by
  rw [readInstructions, StateT.run_bind]
  change ((if cursor.rest.isEmpty then pure found.reverse
    else readInstruction table cursor.position >>= fun insn =>
      readInstructions table ((cursor.position, insn) :: found) bound :
      Reader (List (Nat × Instruction Nat))).run cursor) = _
  rw [if_neg (by simpa using h), StateT.run_bind]

theorem run_readInstructions_nil {table : Table} {found : List (Nat × Instruction Nat)}
    {bound position base : Nat} :
    (readInstructions table found bound).run ⟨[], position, base⟩ =
      .ok (found.reverse, ⟨[], position, base⟩) := by
  cases bound <;> rfl

/-- What has been found stays found. -/
theorem readInstructions_extends {table : Table} {found result : List (Nat × Instruction Nat)}
    {bound : Nat} {cursor final : Cursor}
    (h : (readInstructions table found bound).run cursor = .ok (result, final)) :
    ∃ more, result = found.reverse ++ more := by
  induction bound generalizing found cursor with
  | zero =>
    cases h
    exact ⟨[], by simp⟩
  | succ bound ih =>
    by_cases hr : cursor.rest = []
    · obtain ⟨rest, position, base⟩ := cursor
      cases hr
      rw [run_readInstructions_nil] at h
      cases h
      exact ⟨[], by simp⟩
    · rw [run_readInstructions hr] at h
      obtain ⟨⟨insn, next⟩, -, h⟩ := bind_eq_ok.mp h
      obtain ⟨more, rfl⟩ := ih h
      exact ⟨(cursor.position, insn) :: more, by simp⟩

theorem Written.reads {entry : Instruction Label × Nat} {part : Bytes}
    (h : Written b offsets labels entry part) (hs : b.Sound) (hreal : entry.1.isMarker = false)
    (hl : entry.1.Linked b) :
    Reader.Reads (readInstruction b.table (offsets.getD entry.2 0)) (offsets.getD entry.2 0) part
      (normal (entry.1.mapLabels labels.at)) :=
  reads_encodeInstruction (by rwa [Instruction.isMarker_mapLabels]) (h.canonical.mapLabels _)
    h.short h.reaches h.encodes hs ((Instruction.linked_mapLabels _).mpr hl)

/-- The loop goes on after an instruction that is linked. -/
theorem Written.run {insn : Instruction Label} {index : Nat} {part rest : Bytes}
    (h : Written b offsets labels (insn, index) part) (hs : b.Sound)
    (hreal : insn.isMarker = false) (hl : insn.Linked b) (found : List (Nat × Instruction Nat))
    (bound base : Nat) :
    (readInstructions b.table found (bound + 1)).run
      ⟨part ++ rest, offsets.getD index 0, base⟩ =
    (readInstructions b.table
      ((offsets.getD index 0, normal (insn.mapLabels labels.at)) :: found) bound).run
      ⟨rest, offsets.getD (index + 1) 0, base⟩ := by
  have hpos := size_pos hreal h.size
  have hne : part ++ rest ≠ [] :=
    List.append_ne_nil_of_left_ne_nil (List.ne_nil_of_length_pos hpos) _
  rw [run_readInstructions hne, h.reads hs hreal hl rest base, h.next]
  rfl

/-- The loop only goes on as it should after an instruction that is linked. -/
theorem Written.linked {insn : Instruction Label} {index : Nat} {part rest : Bytes}
    (h : Written b offsets labels (insn, index) part) (hs : b.Sound)
    (hreal : insn.isMarker = false) {found more : List (Nat × Instruction Nat)}
    {bound base : Nat} {final : Cursor}
    (hr : (readInstructions b.table found (bound + 1)).run
      ⟨part ++ rest, offsets.getD index 0, base⟩ = .ok (found.reverse ++
        (offsets.getD index 0, normal (insn.mapLabels labels.at)) :: more, final)) :
    insn.Linked b := by
  have hpos := size_pos hreal h.size
  have hne : part ++ rest ≠ [] :=
    List.append_ne_nil_of_left_ne_nil (List.ne_nil_of_length_pos hpos) _
  rw [run_readInstructions hne] at hr
  obtain ⟨⟨read, next⟩, hfirst, hr⟩ := bind_eq_ok.mp hr
  obtain ⟨others, he⟩ := readInstructions_extends hr
  obtain rfl : read = normal (insn.mapLabels labels.at) := by
    rw [List.reverse_cons, List.append_assoc, List.append_cancel_left_eq] at he
    exact congrArg Prod.snd (List.cons.inj he).1.symm
  exact (Instruction.linked_mapLabels _).mp (linked_of_run h.encodes hs hfirst)

/-- Decoding what elements were written as gives these elements back exactly if all of them are
linked. The loop has found what comes before them. -/
theorem run_readInstructions_iff (hs : b.Sound) {code : List (Instruction Label)} {start : Nat}
    {parts : List Bytes} (h : List.Forall₂ (Written b offsets labels) (code.zipIdx start) parts)
    {found : List (Nat × Instruction Nat)} {bound base : Nat}
    (hbound : parts.flatten.length ≤ bound) :
    (∃ final, (readInstructions b.table found bound).run
      ⟨parts.flatten, offsets.getD start 0, base⟩ =
        .ok (found.reverse ++ readBack offsets labels (code.zipIdx start), final)) ↔
      ∀ insn ∈ code, insn.Linked b := by
  induction code generalizing start parts found bound with
  | nil =>
    obtain rfl := List.forall₂_nil_left_iff.mp h
    simp [run_readInstructions_nil, readBack]
  | cons insn code ih =>
    rw [List.zipIdx_cons] at h
    obtain ⟨part, rest, hw, hrest, rfl⟩ := List.forall₂_cons_left_iff.mp h
    have hnext := hw.next
    simp only at hnext
    rw [List.flatten_cons, List.length_append] at hbound
    cases hm : insn.isMarker with
    | true =>
      have hnil : part = [] := List.eq_nil_of_length_eq_zero (size_marker hm hw.size)
      subst hnil
      have hback : readBack offsets labels ((insn :: code).zipIdx start) =
          readBack offsets labels (code.zipIdx (start + 1)) := by
        simp [readBack, List.zipIdx_cons, hm]
      rw [List.flatten_cons, List.nil_append, hback,
        show offsets.getD start 0 = offsets.getD (start + 1) 0 by simpa using hnext.symm,
        ih hrest (by simpa using hbound)]
      simp [Instruction.linked_of_isMarker hm]
    | false =>
      have hpos := size_pos hm hw.size
      have hback : readBack offsets labels ((insn :: code).zipIdx start) =
          (offsets.getD start 0, normal (insn.mapLabels labels.at)) ::
            readBack offsets labels (code.zipIdx (start + 1)) := by
        simp [readBack, List.zipIdx_cons, hm]
      obtain ⟨bound, rfl⟩ : ∃ n, bound = n + 1 := ⟨bound - 1, by omega⟩
      have hlater := @ih (start + 1) rest hrest
        ((offsets.getD start 0, normal (insn.mapLabels labels.at)) :: found) bound (by omega)
      rw [List.reverse_cons, List.append_assoc, List.singleton_append] at hlater
      rw [List.flatten_cons, hback, List.forall_mem_cons, ← hlater]
      constructor
      · rintro ⟨final, hr⟩
        have hl := hw.linked hs hm hr
        rw [hw.run hs hm hl] at hr
        exact ⟨hl, final, hr⟩
      · rintro ⟨hl, final, hr⟩
        exact ⟨final, by rw [hw.run hs hm hl, hr]⟩

theorem negated_isConditional {op : Opcode} (h : op.isConditional = true) :
    op.negated.isConditional = true := by
  obtain ⟨k, hk, rfl⟩ | rfl | rfl := exists_of_isConditional h
  · interval_cases k <;> decide
  · decide
  · decide

section

variable {body : Body} {laidOut : LaidOut} {parts : List Bytes}

theorem canonical_widened {op : Opcode} {target : Label} {rest : Body}
    (hjump : (Instruction.jump op target).Canonical) (hop : op.isWideJump = false)
    (hrest : ∀ insn ∈ rest.code, insn.Canonical) :
    ∀ insn ∈ (widened (.jump op target) rest).code, insn.Canonical := by
  have hwide : (Instruction.jump .gotoWide target).Canonical := .inr (.inr (.inr rfl))
  by_cases hg : op = .goto
  · subst hg
    exact List.forall_mem_cons.mpr ⟨hwide, hrest⟩
  by_cases hj : op = .jsr
  · subst hj
    exact List.forall_mem_cons.mpr ⟨.inr (.inr (.inr rfl)), hrest⟩
  rw [widened_across hg hj]
  have hcondition := hjump.resolve_right (by simp [hg, hj, hop])
  refine List.forall_mem_cons.mpr ⟨.inl (negated_isConditional hcondition), ?_⟩
  exact List.forall_mem_cons.mpr ⟨hwide, List.forall_mem_cons.mpr ⟨trivial, hrest⟩⟩

theorem canonical_widenFar {far : Instruction Label × Nat → Bool} (hn : Narrow far)
    (hcan : ∀ insn ∈ body.code, insn.Canonical) :
    ∀ insn ∈ (widenFar far body).code, insn.Canonical := by
  have hentries : ∀ entry ∈ body.code.zipIdx, entry.1.Canonical :=
    fun entry hm => hcan entry.1 (List.fst_mem_of_mem_zipIdx hm)
  unfold widenFar
  generalize body.code.zipIdx = entries at hentries
  induction entries with
  | nil => exact List.forall_mem_nil _
  | cons entry entries ih =>
    obtain ⟨hfirst, hrest⟩ := List.forall_mem_cons.mp hentries
    rw [List.foldr_cons, widenIf]
    split
    · rename_i hfar
      obtain ⟨insn, index⟩ := entry
      obtain ⟨op, target, rfl, hop⟩ := hn _ hfar
      exact canonical_widened hfirst hop (ih hrest)
    · exact List.forall_mem_cons.mpr ⟨hfirst, ih hrest⟩

/-- Canonical code stays so, whatever its labels are. -/
theorem canonical_of_widen {method : String} {hasFrames : Bool} {b' : Builder}
    (hcan : ∀ insn ∈ body.code, insn.Canonical)
    (hy : Yields (widen method hasFrames body) b laidOut b') :
    ∀ insn ∈ laidOut.code, insn.Canonical :=
  (lastRound_of_widen (R := fun body => ∀ insn ∈ body.code, insn.Canonical)
    (fun hcan _ _ => canonical_widenFar (narrow_isFar _ _) hcan) hcan hy).1

theorem LastRound.at_le (h : LastRound b laidOut) (label : Label) :
    (LabelOffsets.ofCode laidOut.code laidOut.offsets).at label ≤ maxLength := by
  rw [labelOffsets_at h.laid]
  exact Nat.le_trans (h.laid.le_length _) h.short

/-- Everything that an element refers to can be expressed in it. -/
theorem LastRound.reaches_at (h : LastRound b laidOut) {insn : Instruction Label}
    {index : Nat} (hi : laidOut.code[index]? = some insn) :
    Reaches (laidOut.offsets.getD index 0)
      (insn.mapLabels (LabelOffsets.ofCode laidOut.code laidOut.offsets).at) := by
  cases insn with
  | jump op target => exact ⟨h.at_le target, h.jump_reaches hi⟩
  | tableSwitch low high default targets =>
    refine ⟨h.at_le default, fun goal hg => ?_⟩
    obtain ⟨label, -, rfl⟩ := List.mem_map.mp hg
    exact h.at_le label
  | lookupSwitch default cases =>
    refine ⟨h.at_le default, ?_, fun entry he => ?_⟩
    · have hsize := (yields_pure.mp (h.laid.next hi).1).1
      have hlast := Nat.le_trans (h.laid.le_length (index + 1)) h.short
      rw [List.length_map]
      omega
    · obtain ⟨original, -, rfl⟩ := List.mem_map.mp he
      exact h.at_le original.2
  | _ => trivial

/-- Parts as long as their elements take up the whole code. -/
theorem length_flatten_of_next {code : List (Instruction Label)} {start : Nat}
    (h : List.Forall₂ (fun (entry : Instruction Label × Nat) (part : Bytes) =>
      offsets.getD (entry.2 + 1) 0 = offsets.getD entry.2 0 + part.length)
      (code.zipIdx start) parts) :
    offsets.getD start 0 + parts.flatten.length = offsets.getD (start + code.length) 0 := by
  induction code generalizing start parts with
  | nil =>
    obtain rfl := List.forall₂_nil_left_iff.mp h
    rfl
  | cons insn code ih =>
    obtain ⟨part, rest, hw, hrest, rfl⟩ := List.forall₂_cons_left_iff.mp h
    have hlater := ih hrest
    simp only at hw
    rw [List.flatten_cons, List.length_append, List.length_cons,
      show start + (code.length + 1) = start + 1 + code.length by omega, ← hlater, hw]
    omega

theorem written_of_encode (h : LastRound b laidOut)
    (hcan : ∀ insn ∈ laidOut.code, insn.Canonical)
    (hp : List.Forall₂ (fun (entry : Instruction Label × Nat) part =>
      Yields (encodeInstruction (laidOut.offsets.getD entry.2 0)
        (entry.1.mapLabels (LabelOffsets.ofCode laidOut.code laidOut.offsets).at)) b part b)
      laidOut.code.zipIdx parts) :
    List.Forall₂ (Written b laidOut.offsets (.ofCode laidOut.code laidOut.offsets))
      laidOut.code.zipIdx parts := by
  obtain ⟨hlength, hzip⟩ := List.forall₂_iff_zip.mp hp
  refine List.forall₂_iff_zip.mpr ⟨hlength, ?_⟩
  rintro ⟨insn, index⟩ part hm
  have hy := hzip hm
  have hi : laidOut.code[index]? = some insn :=
    List.mk_mem_zipIdx_iff_getElem?.mp (List.of_mem_zip hm).1
  obtain ⟨hsize, hle⟩ := h.laid.next hi
  have hlen := length_encodeInstruction hsize hy
  exact
    { encodes := hy
      size := hlen ▸ hsize
      next := by rw [hlen]; simp only; omega
      short := Nat.le_trans (h.laid.le_length _) h.short
      canonical := hcan insn (List.mem_of_getElem? hi)
      reaches := h.reaches_at hi }

/-- The parts of a code array, which are written in the pool that is left as they were before. -/
theorem parts_of_encode {b' b'' : Builder} {bytes : Bytes}
    (h : LastRound b laidOut) (hcan : ∀ insn ∈ laidOut.code, insn.Canonical)
    (hw : b.Within b')
    (hy : Yields (encode laidOut.code laidOut.offsets (.ofCode laidOut.code laidOut.offsets)) b'
      bytes b'') {last : Builder} (hlast : b''.Within last) :
    ∃ parts, bytes = parts.flatten ∧
      List.Forall₂ (Written last laidOut.offsets (.ofCode laidOut.code laidOut.offsets))
        laidOut.code.zipIdx parts := by
  have hgrow := (hw.trans ((lawful_encode _ _ _).grows hy)).trans hlast
  obtain ⟨parts, middle, hp, hf⟩ := yields_bind.mp hy
  obtain ⟨rfl, rfl⟩ := yields_pure.mp hf
  have hparts := forall₂_of_mapM (fun _ => lawful_encodeInstruction _ _) hp
  refine ⟨parts, rfl, written_of_encode (h.mono hgrow) hcan (hparts.imp ?_)⟩
  intro entry part he
  exact (lawful_encodeInstruction _ _).again he hlast

theorem decode_eq_ok {table : Table} {bytes : Bytes} {result : List (Nat × Instruction Nat)} :
    decode table (.ofBytes bytes) = .ok result ↔
      ∃ final, (readInstructions table [] bytes.length).run ⟨bytes, 0, 0⟩ =
        .ok (result, final) := by
  change Prod.fst <$> (readInstructions table [] bytes.length).run ⟨bytes, 0, 0⟩ = _ ↔ _
  cases (readInstructions table [] bytes.length).run ⟨bytes, 0, 0⟩ with
  | error fault => simp [Functor.map, Except.map]
  | ok outcome => simp [Functor.map, Except.map, Prod.ext_iff]

theorem decode_eq_readBack_iff (hs : b.Sound) (hfirst : offsets.getD 0 0 = 0)
    {code : List (Instruction Label)}
    (h : List.Forall₂ (Written b offsets labels) code.zipIdx parts) :
    decode b.table (.ofBytes parts.flatten) = .ok (readBack offsets labels code.zipIdx) ↔
      ∀ insn ∈ code, insn.Linked b := by
  have hr := @run_readInstructions_iff b offsets labels hs code 0 parts h [] _ 0 (Nat.le_refl _)
  rw [hfirst, List.reverse_nil, List.nil_append] at hr
  rw [decode_eq_ok, hr]

theorem linked_of_size {insn : Instruction Label} {index : Nat} {part : Bytes}
    (h : Written b offsets labels (insn, index) part) (hs : b.Sound)
    (hsize : b.bootstrap.size ≤ 0x10000) : insn.Linked b := by
  cases insn with
  | invokeDynamic name descriptor method arguments =>
    obtain ⟨site, middle, hi, hp⟩ := yields_bind.mp h.encodes
    obtain ⟨-, rfl⟩ := yields_pure.mp hp
    obtain ⟨place, pair, -, -, hb⟩ := invokeDynamic_found hi (.refl _) hs
    exact ⟨place, hb, bootstrapMethod_found h.canonical.1 h.canonical.2 hb (.refl _) hs hsize⟩
  | _ => trivial

end

theorem linked_of_written (hs : b.Sound) (hsize : b.bootstrap.size ≤ 0x10000)
    {code : List (Instruction Label)} {start : Nat} {parts : List Bytes}
    (h : List.Forall₂ (Written b offsets labels) (code.zipIdx start) parts) :
    ∀ insn ∈ code, insn.Linked b := by
  induction code generalizing start parts with
  | nil => simp
  | cons insn code ih =>
    obtain ⟨part, rest, hw, hrest, rfl⟩ := List.forall₂_cons_left_iff.mp h
    exact List.forall_mem_cons.mpr ⟨linked_of_size hw hs hsize, ih hrest⟩

/-- The code array of canonical code is as long as its layout says. Decoded with any table that
the pool has grown to, it gives the laid out instructions back exactly if every call site is still
linked, and it does if the bootstrap table has places for 16 bits. What was laid out is the code
with some jumps widened, in which every label that is referred to is placed once. -/
theorem decode_encode {method : String} {hasFrames : Bool} {body : Body} {laidOut : LaidOut}
    {b b₁ b₂ b₃ b₄ : Builder} {bytes : Bytes} (howns : body.Owns)
    (hcan : ∀ insn ∈ body.code, insn.Canonical)
    (honce : ∀ label ∈ body.code.flatMap Instruction.references, body.placed.count label = 1)
    (hwiden : Yields (widen method hasFrames body) b laidOut b₁) (hw : b₁.Within b₂)
    (hencode : Yields (encode laidOut.code laidOut.offsets
      (.ofCode laidOut.code laidOut.offsets)) b₂ bytes b₃)
    (hw' : b₃.Within b₄) (hr : b₄.Reachable) :
    bytes.length = laidOut.offsets.length ∧
    (∃ parts, List.Forall₂ Widens body.code parts ∧
      laidOut.code = parts.flatten.map Site.insn) ∧
    (∀ insn ∈ laidOut.code, ∀ label ∈ insn.references, ∃ index,
      laidOut.code[index]? = some (.label label) ∧
      (∀ other, laidOut.code[other]? = some (.label label) → other = index) ∧
      (LabelOffsets.ofCode laidOut.code laidOut.offsets).at label =
        laidOut.offsets.getD index 0) ∧
    (decode b₄.table (.ofBytes bytes) = .ok (readBack laidOut.offsets
      (.ofCode laidOut.code laidOut.offsets) laidOut.code.zipIdx) ↔
        ∀ insn ∈ laidOut.code, insn.Linked b₄) ∧
    (b₄.bootstrap.size ≤ 0x10000 → ∀ insn ∈ laidOut.code, insn.Linked b₄) := by
  obtain ⟨sites, h⟩ := widest_of_widen howns hwiden
  obtain ⟨parts, rfl, hparts⟩ :=
    parts_of_encode h.toLastRound (canonical_of_widen hcan hwiden) hw hencode hw'
  refine ⟨?_, ?_, ?_, decode_eq_readBack_iff hr.sound h.laid.first hparts, ?_⟩
  · have hlength := length_flatten_of_next (hparts.imp fun _ _ hp => hp.next)
    rw [h.laid.first, Nat.zero_add, Nat.zero_add] at hlength
    rw [hlength, h.laid.length_eq]
  · obtain ⟨groups, hg, he⟩ := h.parts
    exact ⟨groups, hg, by rw [h.code, he]⟩
  · intro insn hm label hl
    exact exists_at_of_once (h.once_of_mem howns honce hm hl)
  · exact fun hsize => linked_of_written hr.sound hsize hparts

/-- Code that calls a site again and again. -/
def calling : Body :=
  ⟨[.label ⟨0⟩, .invokeDynamic "run" "()V" ⟨.invokeStatic, ⟨"Main", "link", "()V"⟩, false⟩ [],
    .jump .goto ⟨0⟩], 1⟩

def callingLaidOut : LaidOut :=
  ⟨calling.code, 1, #[0, 0, 5, 8]⟩

theorem widen_calling (b : Builder) : Yields (widen "run" false calling) b callingLaidOut b :=
  widen_of_short rfl (by decide)

theorem takes_encode_calling (labels : LabelOffsets) :
    Takes (encode calling.code #[0, 0, 5, 8] labels) 22 1 := by
  have hcall : ∀ place : Nat, Takes (encodeInstruction place (.invokeDynamic "run" "()V"
      ⟨.invokeStatic, ⟨"Main", "link", "()V"⟩, false⟩ [])) 22 1 := fun place =>
    ((((takes_method _ _).bind fun _ => takes_constant _).bind fun _ =>
      (takes_pure []).bind fun _ => takes_entry _).bind fun _ =>
        (takes_nameAndType _ _).bind fun _ => takes_constant _).bind fun _ => takes_pure _
  have hparts : Takes (calling.code.zipIdx.mapM fun entry =>
      encodeInstruction ((#[0, 0, 5, 8] : Offsets).getD entry.2 0) (entry.1.mapLabels labels.at))
      22 1 := by
    rw [calling, List.zipIdx_cons, List.zipIdx_cons, List.zipIdx_cons, List.zipIdx_nil,
      List.mapM_cons, List.mapM_cons, List.mapM_cons, List.mapM_nil]
    exact (takes_pure _).bind fun _ => ((hcall _).bind fun _ => ((takes_pure _).bind fun _ =>
      (takes_pure _).bind fun _ => takes_pure _).bind fun _ => takes_pure _).bind fun _ =>
        takes_pure _
  exact hparts.bind fun _ => takes_pure _

theorem calling_owns : calling.Owns := by
  unfold Body.Owns
  decide

theorem calling_canonical : ∀ insn ∈ calling.code, insn.Canonical := by
  simp [calling, Instruction.Canonical, Handle.Canonical, HandleKind.isField]

theorem calling_once : ∀ label ∈ calling.code.flatMap Instruction.references,
    calling.placed.count label = 1 := by
  decide

theorem readBack_calling : readBack callingLaidOut.offsets
    (.ofCode callingLaidOut.code callingLaidOut.offsets) callingLaidOut.code.zipIdx =
      [(0, .invokeDynamic "run" "()V" ⟨.invokeStatic, ⟨"Main", "link", "()V"⟩, false⟩ []),
        (5, .jump .goto 0)] := by
  have hlabels : LabelOffsets.ofCode callingLaidOut.code callingLaidOut.offsets =
      (∅ : LabelOffsets).insert ⟨0⟩ 0 := rfl
  have hat : (LabelOffsets.ofCode callingLaidOut.code callingLaidOut.offsets).at ⟨0⟩ = 0 := by
    rw [hlabels, LabelOffsets.at, Std.HashMap.getD_insert_self]
  change [_, (5, Instruction.jump .goto ((LabelOffsets.ofCode callingLaidOut.code
    callingLaidOut.offsets).at ⟨0⟩))] = _
  rw [hat]
  rfl

/-- In a pool with nothing in it, the call is read back. -/
theorem calling_decoded : ∃ bytes b, Yields (encode callingLaidOut.code callingLaidOut.offsets
      (.ofCode callingLaidOut.code callingLaidOut.offsets)) .empty bytes b ∧
    bytes.length = 8 ∧ decode b.table (.ofBytes bytes) = .ok
      [(0, .invokeDynamic "run" "()V" ⟨.invokeStatic, ⟨"Main", "link", "()V"⟩, false⟩ []),
        (5, .jump .goto 0)] := by
  obtain ⟨bytes, b, hy, -, hsize⟩ := takes_encode_calling
    (.ofCode callingLaidOut.code callingLaidOut.offsets) .empty 0 (by decide)
  have hr := (lawful_encode _ _ _).reaches .empty hy
  obtain ⟨hlength, -, -, hiff, hlinked⟩ := decode_encode calling_owns calling_canonical calling_once
    (widen_calling .empty) (.refl _) hy (.refl _) hr
  refine ⟨bytes, b, hy, hlength, ?_⟩
  have hsmall : b.bootstrap.size ≤ 0x10000 := Nat.le_trans hsize (by decide)
  rw [hiff.mpr (hlinked hsmall), readBack_calling]

/-- A table with as many bootstrap methods as there are numbers for them, all of which name a
number in place of a handle. -/
def crowded : Builder :=
  .ofTable ⟨Constants.empty.add (.integer 0), Array.replicate 0x10000 ⟨1, []⟩⟩

theorem crowded_reachable : crowded.Reachable := by
  have hread : Constants.read.run (.ofBytes [0, 2, 3, 0, 0, 0, 0]) =
      .ok (Constants.empty.add (.integer 0), ⟨[], 7, 0⟩) := by
    refine run_bind_eq_ok.mpr ⟨2, ⟨[3, 0, 0, 0, 0], 2, 0⟩, rfl, ?_⟩
    rw [Constants.readFrom, dif_pos (by decide)]
    refine run_bind_eq_ok.mpr ⟨.integer 0, ⟨[], 7, 0⟩, rfl, ?_⟩
    rw [Constants.readFrom, dif_neg (by decide)]
    rfl
  exact .seeded hread

/-- Then whatever is added is not found where its index says. -/
theorem not_linked_of_crowded {b : Builder} (hw : crowded.Within b) {name descriptor : String}
    {method : Handle} {arguments : List Literal} :
    ¬ (Instruction.invokeDynamic name descriptor method arguments : Instruction Label).Linked
      b := by
  rintro ⟨place, -, hfound⟩
  have hentry : b.table.bootstrap[place.toNat]? = some ⟨1, []⟩ := by
    refine hw.bootstrap ?_
    change (Array.replicate 0x10000 (⟨1, []⟩ : BootstrapMethod))[place.toNat]? = _
    rw [Array.getElem?_replicate, if_pos place.toNat_lt]
  have hget : b.table.get 1 = .ok (.integer 0) :=
    Table.get_eq_ok.mpr (hw.constants (@Slots.get?_push_next _ Constants.empty (.integer 0) false))
  have hhandle : b.table.handle 1 = Table.unexpected 1 "MethodHandle" (.integer 0) := by
    rw [Table.handle, hget]
    rfl
  rw [Table.bootstrapMethod, hentry] at hfound
  simp only [hhandle] at hfound
  cases hfound

/-- With a table that is full, the call is not read back. -/
theorem calling_notDecoded : ∃ bytes b, crowded.Reachable ∧ calling.Owns ∧
    (∀ insn ∈ calling.code, insn.Canonical) ∧
    (∀ label ∈ calling.code.flatMap Instruction.references, calling.placed.count label = 1) ∧
    Yields (widen "run" false calling) crowded callingLaidOut crowded ∧
    Yields (encode callingLaidOut.code callingLaidOut.offsets
      (.ofCode callingLaidOut.code callingLaidOut.offsets)) crowded bytes b ∧
    decode b.table (.ofBytes bytes) ≠ .ok
      [(0, .invokeDynamic "run" "()V" ⟨.invokeStatic, ⟨"Main", "link", "()V"⟩, false⟩ []),
        (5, .jump .goto 0)] := by
  obtain ⟨bytes, b, hy, -⟩ := takes_encode_calling
    (.ofCode callingLaidOut.code callingLaidOut.offsets) crowded 0 (by decide)
  have hr := (lawful_encode _ _ _).reaches crowded_reachable hy
  have hgrow := (lawful_encode _ _ _).grows hy
  refine ⟨bytes, b, crowded_reachable, calling_owns, calling_canonical, calling_once,
    widen_calling crowded, hy, ?_⟩
  have h := ends_of_widen (widen_calling crowded)
  obtain ⟨parts, rfl, hparts⟩ := parts_of_encode h calling_canonical (.refl _) hy (.refl _)
  rw [← readBack_calling, ne_eq, decode_eq_readBack_iff hr.sound h.laid.first hparts]
  exact fun hall => not_linked_of_crowded hgrow
    (hall _ (List.mem_cons_of_mem _ List.mem_cons_self))

end Code
end ClassTree
