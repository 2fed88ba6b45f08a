import ClassTree.Code.Labels
import ClassTree.Proofs.Code.Sites

namespace ClassTree

/-- Every label that is placed in the code has been handed out for it. -/
def Body.Owns (body : Body) : Prop :=
  ∀ label ∈ body.placed, label.index < body.labels

namespace Code

open Pool Build

variable {method : String} {hasFrames : Bool} {body : Body} {b b' : Builder} {offsets : Offsets}
  {laidOut : LaidOut}

section Rounds

def isFar (offsets : Offsets) (code : List (Instruction Label)) (entry : Instruction Label × Nat) :
    Bool :=
  isJumpBeyond offsets (.ofCode code) entry.2 entry.1

def isFarCondition (offsets : Offsets) (code : List (Instruction Label))
    (entry : Instruction Label × Nat) : Bool :=
  isFar offsets code entry && isConditional entry.1

theorem isJumpBeyond_iff {positions : Flow.Positions} {index : Nat} {insn : Instruction Label} :
    isJumpBeyond offsets positions index insn = true ↔
      ∃ op target, insn = .jump op target ∧ op.isWideJump = false ∧
        ((offsets.getD (positions.getD target 0) 0 : Int) - offsets.getD index 0 < -0x8000 ∨
          0x7FFF < (offsets.getD (positions.getD target 0) 0 : Int) - offsets.getD index 0) := by
  cases insn <;> simp [isJumpBeyond]

theorem isFar_of_at {code : List (Instruction Label)} {op : Opcode} {index place : Nat}
    {target : Label} (hop : op.isWideJump = false)
    (hat : (Flow.Positions.ofCode code).getD target 0 = place)
    (hfar : offsets.getD index 0 + 0x7FFF < offsets.getD place 0) :
    isFar offsets code (.jump op target, index) = true := by
  refine isJumpBeyond_iff.mpr ⟨op, target, rfl, hop, .inr ?_⟩
  rw [hat]
  dsimp only
  omega

theorem near_of_wide {code : List (Instruction Label)} {entries : List (Instruction Label × Nat)}
    (h : ∀ op target index, (.jump op target, index) ∈ entries → op.isWideJump = true) :
    ∀ entry ∈ entries, isFar offsets code entry = false := by
  rintro ⟨insn, index⟩ hm
  refine Bool.eq_false_iff.mpr fun hfar => ?_
  obtain ⟨op, target, rfl, hop, -⟩ := isJumpBeyond_iff.mp hfar
  rw [h op target index hm] at hop
  cases hop

theorem narrow_isFar (offsets : Offsets) (code : List (Instruction Label)) :
    Narrow (isFar offsets code) :=
  narrow_isJumpBeyond offsets _

theorem widen_eq (method : String) (hasFrames : Bool) (body : Body) :
    widen method hasFrames body = (do
      let offsets ← layout body.code
      if maxLength < offsets.length then
        throw (.inconsistent (.codeTooLarge method offsets.length))
      else if body.code.zipIdx.any (isFar offsets body.code) then
        if hasFrames && body.code.zipIdx.any (isFarCondition offsets body.code) then
          throw (.inconsistent (.jumpOutOfRange method))
        else widen method hasFrames (widenFar (isFar offsets body.code) body)
      else return ⟨body.code, body.labels, offsets⟩) := by
  rw [widen, ← WeaklyLawfulMonadAttach.pbind_eq_bind]
  rfl

theorem canReturn_of_yields {α : Type} {x : Build α} {a : α} (h : Yields x b a b') :
    MonadAttach.CanReturn x a :=
  ⟨b, b', h⟩

/-- What holds whenever it holds after one more round holds of all code, as rounds end. -/
theorem rounds_induction {P : Body → Prop}
    (step : ∀ body, (∀ {offsets b b'}, Yields (layout body.code) b offsets b' →
      ¬ maxLength < offsets.length → body.code.zipIdx.any (isFar offsets body.code) = true →
      P (widenFar (isFar offsets body.code) body)) → P body) (body : Body) : P body := by
  induction hn : maxLength + 1 - body.code.countP isWide using Nat.strongRecOn
    generalizing body with
  | ind n ih =>
    refine step body fun hy hshort hany => ih _ ?_ _ rfl
    rw [← hn]
    exact room_decreases (narrow_isFar _ _) (canReturn_of_yields hy) hshort hany

/-- The last round of widening, after which all jumps reach. -/
structure LastRound (b : Builder) (laidOut : LaidOut) : Prop where
  laid : Laid b laidOut.code laidOut.offsets
  short : laidOut.offsets.length ≤ maxLength
  near : laidOut.code.zipIdx.any (isFar laidOut.offsets laidOut.code) = false

/-- What every round keeps holds after the last one. -/
theorem lastRound_of_widen {R : Body → Prop} (step : ∀ {body : Body} {offsets b}, R body →
      Laid b body.code offsets →
      (hasFrames = true → body.code.zipIdx.any (isFarCondition offsets body.code) = false) →
      R (widenFar (isFar offsets body.code) body))
    (h : R body) (hy : Yields (widen method hasFrames body) b laidOut b') :
    R ⟨laidOut.code, laidOut.labels⟩ ∧ LastRound b' laidOut := by
  induction body using rounds_induction generalizing b with
  | step body ih =>
    rw [widen_eq] at hy
    obtain ⟨offsets, middle, hl, hy⟩ := yields_bind.mp hy
    split at hy
    · exact absurd hy not_yields_throw
    rename_i hshort
    split at hy
    · rename_i hany
      split at hy
      · exact absurd hy not_yields_throw
      rename_i hguard
      refine ih hl hshort hany (step h (laid_of_layout hl) fun hframes => ?_) hy
      simpa [hframes] using hguard
    · rename_i hnone
      obtain ⟨rfl, rfl⟩ := yields_pure.mp hy
      exact ⟨h, laid_of_layout hl, Nat.le_of_not_lt hshort, Bool.eq_false_iff.mpr hnone⟩

/-- Whatever its labels are, widened code is laid out, is not too long, and its jumps reach. -/
theorem ends_of_widen (hy : Yields (widen method hasFrames body) b laidOut b') :
    LastRound b' laidOut :=
  (lastRound_of_widen (R := fun _ => True) (fun _ _ _ => trivial) trivial hy).2

theorem laid_of_widen (hy : Yields (widen method hasFrames body) b laidOut b') :
    Laid b' laidOut.code laidOut.offsets ∧ laidOut.offsets.length ≤ maxLength :=
  ⟨(ends_of_widen hy).laid, (ends_of_widen hy).short⟩

/-- Code in which every jump reaches is left as it is. -/
theorem widen_of_near (hy : Yields (layout body.code) b offsets b')
    (hshort : offsets.length ≤ maxLength)
    (hnear : body.code.zipIdx.any (isFar offsets body.code) = false) :
    Yields (widen method hasFrames body) b ⟨body.code, body.labels, offsets⟩ b' := by
  rw [widen_eq]
  refine yields_bind.mpr ⟨offsets, b', hy, ?_⟩
  rw [if_neg (Nat.not_lt.mpr hshort), if_neg (by simp [hnear])]
  exact yields_pure.mpr ⟨rfl, rfl⟩

/-- Code in which no jump can be too far is left as it is. -/
theorem widen_of_short (hy : Yields (layout body.code) b offsets b')
    (hshort : offsets.length ≤ 0x7FFF) :
    Yields (widen method hasFrames body) b ⟨body.code, body.labels, offsets⟩ b' := by
  refine widen_of_near hy (Nat.le_trans hshort (by decide)) (List.any_eq_false.mpr ?_)
  rintro ⟨insn, index⟩ - hfar
  obtain ⟨op, target, -, -, hfar⟩ := isJumpBeyond_iff.mp hfar
  have hfrom := (laid_of_layout hy).le_length index
  have hto := (laid_of_layout hy).le_length ((Flow.Positions.ofCode body.code).getD target 0)
  dsimp only at hfar
  omega

/-- A round is made if a jump does not reach. Without frames in the code, any jump may be
widened. -/
theorem widen_of_far {middle : Builder} (hy : Yields (layout body.code) b offsets middle)
    (hshort : offsets.length ≤ maxLength)
    (hfar : body.code.zipIdx.any (isFar offsets body.code) = true)
    (hrest : Yields (widen method false (widenFar (isFar offsets body.code) body)) middle laidOut
      b') :
    Yields (widen method false body) b laidOut b' := by
  rw [widen_eq]
  refine yields_bind.mpr ⟨offsets, middle, hy, ?_⟩
  rwa [if_neg (Nat.not_lt.mpr hshort), if_pos hfar, if_neg (by simp)]

end Rounds

/-- Code while jumps are widened, for a body that owns its labels. -/
structure Widening (body : Body) (sites : List Site) (labels : Nat) : Prop where
  parts : ∃ parts, List.Forall₂ Widens body.code parts ∧ sites = parts.flatten
  /-- Labels that are placed have been handed out. -/
  below : ∀ label ∈ Site.placed sites, label.index < labels
  /-- Labels that are skipped to are placed once. -/
  once : ∀ skip, ⟨.label skip, false⟩ ∈ sites → (Site.placed sites).count skip = 1
  more : body.labels ≤ labels
  same : ∀ label, label.index < body.labels →
    (Site.placed sites).count label = body.placed.count label

theorem placed_original (code : List (Instruction Label)) :
    Site.placed (code.map (⟨·, true⟩)) = code.filterMap Instruction.placed? := by
  rw [Site.placed, List.filterMap_map]
  rfl

theorem widening_start (h : body.Owns) :
    Widening body (body.code.map (⟨·, true⟩)) body.labels where
  parts := by
    refine ⟨body.code.map fun insn => [⟨insn, true⟩], ?_, ?_⟩
    · rw [List.forall₂_map_right_iff, List.forall₂_same]
      exact fun insn _ => .stays insn
    · induction body.code with
      | nil => rfl
      | cons insn code ih => simp [ih]
  below := by
    rw [placed_original]
    exact h
  once := by
    intro skip hm
    obtain ⟨insn, -, he⟩ := List.mem_map.mp hm
    cases he
  more := Nat.le_refl _
  same := by
    intro label _
    rw [placed_original]
    rfl

theorem bodyOf_original (body : Body) :
    Site.bodyOf (body.code.map (⟨·, true⟩)) body.labels = body :=
  congrArg (Body.mk · body.labels) ((List.map_map ..).trans (List.map_id _))

section

variable {sites sites' : List Site} {labels labels' : Nat}

theorem Widening.step (h : Widening body sites labels)
    (hr : Site.Round sites labels sites' labels') : Widening body sites' labels' where
  parts := by
    obtain ⟨parts, hw, rfl⟩ := h.parts
    exact hr.parts hw
  below := hr.handedOut h.below
  once := fun _ => hr.once h.below h.once
  more := Nat.le_trans h.more hr.le
  same := by
    intro label hl
    rw [hr.count_old (Nat.lt_of_lt_of_le hl h.more), h.same label hl]

theorem size_jump {op : Opcode} {target : Label} {offset n : Nat}
    (h : Yields (size offset (.jump op target)) b n b) :
    n = if op.isWideJump then 5 else 3 :=
  (yields_pure.mp h).1.symm
/-- The negation of a condition goes as far as it takes to get past a wide jump. -/
theorem Widening.skips {labels : Nat} {offsets : Offsets} (h : Widening body sites labels)
    (hlaid : Laid b (sites.map Site.insn) offsets) {index : Nat} {op : Opcode} {skip : Label}
    (hs : sites[index]? = some ⟨.jump op skip, false⟩) (hop : op.isWideJump = false) :
    offsets.getD ((Flow.Positions.ofCode (sites.map Site.insn)).getD skip 0) 0 =
      offsets.getD index 0 + 8 := by
  have hinsn : ∀ {i : Nat} {site : Site}, sites[i]? = some site →
      (sites.map Site.insn)[i]? = some site.insn := by
    intro i site hi
    rw [List.getElem?_map, hi]
    rfl
  obtain ⟨parts, hw, he⟩ := h.parts
  obtain ⟨⟨goal, hwide⟩, hlabel⟩ := over_of_narrow hw (he ▸ hs) hop
  rw [← he] at hwide hlabel
  have honce : ((sites.map Site.insn).filterMap Instruction.placed?).count skip = 1 := by
    rw [List.filterMap_map]
    exact h.once skip (List.mem_of_getElem? hlabel)
  have hpos := Flow.Positions.getElem?_ofCode_of_once honce (hinsn hlabel)
  have hfirst := hlaid.next (hinsn hs)
  have hsecond := hlaid.next (hinsn hwide)
  rw [show index + 1 + 1 = index + 2 from rfl] at hsecond
  have h₁ := size_jump hfirst.1
  have h₂ := size_jump hsecond.1
  have hw : Opcode.gotoWide.isWideJump = true := rfl
  rw [hop] at h₁
  rw [hw] at h₂
  rw [Std.HashMap.getD_eq_getD_getElem?, hpos, Option.getD_some]
  simp only [Bool.false_eq_true, if_false, if_true] at h₁ h₂
  omega
/-- A round widens nothing that an earlier one has put there, since all of that reaches. -/
theorem Widening.original_of_isFar (h : Widening body sites labels)
    (hlaid : Laid b (sites.map Site.insn) offsets) {entry : Site × Nat} (hm : entry ∈ sites.zipIdx)
    (hfar : isFar offsets (sites.map Site.insn) (entry.1.insn, entry.2) = true) :
    entry.1.original = true := by
  obtain ⟨⟨insn, original⟩, index⟩ := entry
  cases original with
  | true => rfl
  | false =>
    obtain ⟨op, target, rfl, hop, hbeyond⟩ := isJumpBeyond_iff.mp hfar
    have hskips := h.skips hlaid (List.mk_mem_zipIdx_iff_getElem?.mp hm) hop
    dsimp only at hbeyond
    omega

theorem Widening.exists_round (h : Widening body sites labels)
    (hlaid : Laid b (sites.map Site.insn) offsets) :
    ∃ sites' labels', Site.Round sites labels sites' labels' ∧
      widenFar (isFar offsets (Site.bodyOf sites labels).code) (Site.bodyOf sites labels) =
        Site.bodyOf sites' labels' :=
  Site.exists_round (narrow_isFar _ _) sites labels fun _ => h.original_of_isFar hlaid

/-- Labels that are skipped to are new, and there are none if there are frames in the code. -/
def SkipsNew (hasFrames : Bool) (body : Body) (sites : List Site) : Prop :=
  ∀ skip, ⟨.label skip, false⟩ ∈ sites → hasFrames = false ∧ body.labels ≤ skip.index

theorem SkipsNew.step (h : SkipsNew hasFrames body sites)
    (hmore : body.labels ≤ labels) (hr : Site.Round sites labels sites' labels')
    (hframes : hasFrames = true → labels' = labels) : SkipsNew hasFrames body sites' := by
  intro skip hm
  rcases hr.skip_mem hm with hold | ⟨hle, hlt⟩
  · exact h skip hold
  · refine ⟨?_, Nat.le_trans hmore hle⟩
    by_contra hf
    have hsame := hframes (by simpa using hf)
    omega

/-- Code that has been widened a few times. With frames in it, no label was put there. -/
def Widened (hasFrames : Bool) (body body' : Body) : Prop :=
  ∃ sites, Widening body sites body'.labels ∧ SkipsNew hasFrames body sites ∧
    body' = Site.bodyOf sites body'.labels

theorem Widened.refl (hasFrames : Bool) (h : body.Owns) : Widened hasFrames body body :=
  ⟨_, widening_start h, by simp [SkipsNew], (bodyOf_original body).symm⟩

theorem Widened.step {body' : Body} (h : Widened hasFrames body body')
    (hlaid : Laid b body'.code offsets)
    (hplain : hasFrames = true →
      body'.code.zipIdx.any (isFarCondition offsets body'.code) = false) :
    Widened hasFrames body (widenFar (isFar offsets body'.code) body') := by
  obtain ⟨sites, hw, hnew, he⟩ := h
  generalize body'.labels = labels at hw he
  subst he
  obtain ⟨sites', labels', hround, he⟩ := hw.exists_round hlaid
  rw [he]
  refine ⟨sites', hw.step hround, hnew.step hw.more hround fun hframes => ?_, rfl⟩
  have hsame := labels_widenFar (narrow_isFar _ _) (hplain hframes)
  rwa [he] at hsame

theorem widened_of_widen (h : body.Owns) (hy : Yields (widen method hasFrames body) b laidOut b') :
    Widened hasFrames body ⟨laidOut.code, laidOut.labels⟩ ∧ LastRound b' laidOut :=
  lastRound_of_widen (fun h => h.step) (Widened.refl hasFrames h) hy

structure Widest (body : Body) (b : Builder) (laidOut : LaidOut) (sites : List Site) : Prop
    extends Widening body sites laidOut.labels, LastRound b laidOut where
  code : laidOut.code = sites.map Site.insn

theorem widest_of_widen (h : body.Owns) (hy : Yields (widen method hasFrames body) b laidOut b') :
    ∃ sites, Widest body b' laidOut sites := by
  obtain ⟨⟨sites, hw, -, he⟩, hlast⟩ := widened_of_widen h hy
  exact ⟨sites, hw, hlast, congrArg Body.code he⟩

theorem Widest.placed_eq (h : Widest body b laidOut sites) :
    laidOut.code.filterMap Instruction.placed? = Site.placed sites := by
  rw [h.code, List.filterMap_map]
  rfl

theorem LastRound.mono (h : LastRound b laidOut) (hw : b.Within b') : LastRound b' laidOut :=
  { h with laid := h.laid.mono hw }

theorem Widest.mono (h : Widest body b laidOut sites) (hw : b.Within b') :
    Widest body b' laidOut sites :=
  { h with laid := h.laid.mono hw }

/-- Every jump that is not wide reaches its target. -/
theorem LastRound.jump_reaches (h : LastRound b laidOut) {index : Nat} {op : Opcode}
    {target : Label} (hi : laidOut.code[index]? = some (.jump op target))
    (hop : op.isWideJump = false) :
    -0x8000 ≤ ((LabelOffsets.ofCode laidOut.code laidOut.offsets).at target : Int) -
        laidOut.offsets.getD index 0 ∧
      ((LabelOffsets.ofCode laidOut.code laidOut.offsets).at target : Int) -
        laidOut.offsets.getD index 0 ≤ 0x7FFF := by
  rw [labelOffsets_at h.laid]
  have hnot := List.any_eq_false.mp h.near _ (List.mk_mem_zipIdx_iff_getElem?.mpr hi)
  rw [isFar, isJumpBeyond_iff] at hnot
  constructor
  · by_contra hl
    exact hnot ⟨op, target, rfl, hop, .inl (Int.not_le.mp hl)⟩
  · by_contra hr
    exact hnot ⟨op, target, rfl, hop, .inr (Int.not_le.mp hr)⟩

/-- Whatever elements refer to is placed once, if that was so before. -/
theorem Widening.once_of_mem {labels : Nat} (h : Widening body sites labels) (howns : body.Owns)
    (honce : ∀ label ∈ body.code.flatMap Instruction.references, body.placed.count label = 1)
    {site : Site} (hm : site ∈ sites) {label : Label} (hl : label ∈ site.insn.references) :
    (Site.placed sites).count label = 1 := by
  have hold : ∀ original ∈ body.code, label ∈ original.references →
      (Site.placed sites).count label = 1 := by
    intro original ho hr
    have hc := honce label (List.mem_flatMap.mpr ⟨original, ho, hr⟩)
    have hplaced : label ∈ body.placed := List.count_pos_iff.mp (by omega)
    rw [h.same label (howns label hplaced), hc]
  obtain ⟨parts, hw, he⟩ := h.parts
  obtain ⟨original, ho, part, hp, hwidens, hsite⟩ := mem_parts hw (he ▸ hm)
  have hpart : ∀ site ∈ part, site ∈ sites := fun site hsite =>
    he ▸ List.mem_flatten.mpr ⟨part, hp, hsite⟩
  cases hwidens with
  | stays =>
    obtain rfl := List.mem_singleton.mp hsite
    exact hold original ho hl
  | goto target | jsr target =>
    obtain rfl := List.mem_singleton.mp hsite
    exact hold _ ho hl
  | across target skip narrow ne_goto ne_jsr =>
    simp only [List.mem_cons, List.not_mem_nil, or_false] at hsite
    rcases hsite with rfl | rfl | rfl
    · obtain rfl : label = skip := by simpa [Instruction.references] using hl
      exact h.once label (hpart _ (by simp))
    · exact hold _ ho hl
    · cases hl

/-- No label is placed twice, if that was so before. -/
theorem Widening.nodup {labels : Nat} (h : Widening body sites labels) (howns : body.Owns)
    (hnodup : body.placed.Nodup) : (Site.placed sites).Nodup := by
  refine List.nodup_iff_count.mpr fun label => ?_
  by_cases hold : label.index < body.labels
  · rw [h.same label hold]
    exact List.nodup_iff_count.mp hnodup label
  by_cases hplaced : label ∈ Site.placed sites
  · -- the label was not in the code before, so it was put there to be skipped to
    obtain ⟨⟨insn, original⟩, hsite, he⟩ := List.mem_filterMap.mp hplaced
    obtain rfl : insn = .label label := Instruction.eq_of_placed? he
    obtain ⟨parts, hw, hsites⟩ := h.parts
    obtain ⟨original, ho, part, hp, hwidens, hm⟩ := mem_parts hw (hsites ▸ hsite)
    cases hwidens with
    | stays =>
      cases List.mem_singleton.mp hm
      exact absurd (howns label (List.mem_filterMap.mpr ⟨_, ho, rfl⟩)) hold
    | goto | jsr => cases List.mem_singleton.mp hm
    | across target skip =>
      simp only [List.mem_cons, Site.mk.injEq, reduceCtorEq, false_and, List.not_mem_nil, or_false,
        false_or] at hm
      obtain ⟨hskip, rfl⟩ := hm
      exact Nat.le_of_eq (h.once label hsite)
  · rw [List.count_eq_zero.mpr hplaced]
    exact Nat.zero_le 1
/-- Whatever the code refers to is placed once, if that was so before. -/
theorem Widest.once_of_mem (h : Widest body b laidOut sites) (howns : body.Owns)
    (honce : ∀ label ∈ body.code.flatMap Instruction.references, body.placed.count label = 1)
    {insn : Instruction Label} (hm : insn ∈ laidOut.code) {label : Label}
    (hl : label ∈ insn.references) :
    (laidOut.code.filterMap Instruction.placed?).count label = 1 := by
  rw [h.placed_eq]
  rw [h.code] at hm
  obtain ⟨site, hs, rfl⟩ := List.mem_map.mp hm
  exact h.toWidening.once_of_mem howns honce hs hl

/-- No label is placed twice, if that was so before. -/
theorem Widest.nodup (h : Widest body b laidOut sites) (howns : body.Owns)
    (hnodup : body.placed.Nodup) : (laidOut.code.filterMap Instruction.placed?).Nodup := by
  rw [h.placed_eq]
  exact h.toWidening.nodup howns hnodup

/-- Whatever is placed is placed once, if that was so before. -/
theorem Widest.once_of_placed (h : Widest body b laidOut sites) (howns : body.Owns)
    (hnodup : body.placed.Nodup) {index : Nat} {label : Label}
    (hi : laidOut.code[index]? = some (.label label)) :
    (laidOut.code.filterMap Instruction.placed?).count label = 1 := by
  rw [(h.nodup howns hnodup).count, if_pos]
  exact List.mem_filterMap.mpr ⟨_, List.mem_of_getElem? hi, rfl⟩

end

end Code
end ClassTree
