import ClassTree.Code.DeadCode
import ClassTree.Proofs.Code.Labels

namespace ClassTree.Code

open Pool Build

variable {b b' : Builder} {code replaced : List (Instruction Label)} {offsets offsets' : Offsets}
  {frames : Array (Option Flow.SlotFrame)} {labels : Nat} {entries : List Reached}

structure Describes (code : List (Instruction Label)) (frames : Array (Option Flow.SlotFrame))
    (offsets : Offsets) (index : Nat) (entry : Reached) : Prop where
  insn : code[index]? = some entry.insn
  isDead : entry.isDead = (!entry.insn.isMarker && (frames.getD index none).isNone)
  offset : entry.offset = offsets.getD index 0
  size : entry.size = offsets.getD (index + 1) 0 - offsets.getD index 0

def Ends : List Reached → Prop
  | [] => True
  | entry :: rest =>
    (entry.isDead = true → entry.isLast = false → ∃ later ∈ rest, later.isDead = true) ∧ Ends rest

/-- The step that finds out about an element, with what is known of those after it. -/
def reachStep (frames : Array (Option Flow.SlotFrame)) (offsets : Offsets)
    (element : Instruction Label × Nat) (known : List Reached × Bool) : List Reached × Bool :=
  let isDead := !element.1.isMarker && (frames.getD element.2 none).isNone
  let offset := offsets.getD element.2 0
  (⟨element.1, offsets.getD (element.2 + 1) 0 - offset, offset, isDead, isDead && !known.2⟩ ::
    known.1, if element.1.isMarker then known.2 else isDead)

theorem reach_eq : reach code frames offsets =
    (code.zipIdx.foldr (reachStep frames offsets) ([], false)).1 := by
  rw [reach, List.foldl_reverse]
  rfl

theorem foldr_reachStep (rest : List (Instruction Label)) (start : Nat)
    (h : ∀ i : Nat, rest[i]? = code[start + i]?) :
    let known := (rest.zipIdx start).foldr (reachStep frames offsets) ([], false)
    known.1.length = rest.length ∧
      (∀ i entry, known.1[i]? = some entry → Describes code frames offsets (start + i) entry) ∧
      Ends known.1 ∧ (known.2 = true → ∃ entry ∈ known.1, entry.isDead = true) := by
  induction rest generalizing start with
  | nil => exact ⟨rfl, nofun, trivial, nofun⟩
  | cons insn rest ih =>
    have hrest : ∀ i : Nat, rest[i]? = code[start + 1 + i]? := by
      intro i
      rw [Nat.add_assoc, Nat.add_comm 1 i]
      exact h (i + 1)
    obtain ⟨hlength, hknown, hends, hfollows⟩ := ih (start + 1) hrest
    dsimp only
    rw [List.zipIdx_cons, List.foldr_cons]
    generalize (rest.zipIdx (start + 1)).foldr (reachStep frames offsets) ([], false) = known
      at hlength hknown hends hfollows ⊢
    refine ⟨congrArg (· + 1) hlength, ?_, ⟨?_, hends⟩, ?_⟩
    · intro i entry hi
      cases i with
      | zero =>
        cases hi
        exact ⟨(h 0).symm, rfl, rfl, rfl⟩
      | succ i =>
        have hd := hknown i entry hi
        rwa [Nat.add_assoc, Nat.add_comm 1 i] at hd
    · intro hdead hlast
      refine hfollows ?_
      have hd : (!insn.isMarker && (frames.getD start none).isNone) = true := hdead
      have hl : ((!insn.isMarker && (frames.getD start none).isNone) && !known.2) = false := hlast
      rw [hd] at hl
      simpa using hl
    · intro hf
      by_cases hm : insn.isMarker = true
      · obtain ⟨entry, he, hd⟩ := hfollows (by simpa [reachStep, hm] using hf)
        exact ⟨entry, List.mem_cons_of_mem _ he, hd⟩
      · exact ⟨_, List.mem_cons_self, by simpa [reachStep, hm] using hf⟩

/-- Every element is described, and runs have an end. -/
theorem reach_spec (code : List (Instruction Label)) (frames : Array (Option Flow.SlotFrame))
    (offsets : Offsets) : (reach code frames offsets).length = code.length ∧
      (∀ i entry, (reach code frames offsets)[i]? = some entry →
        Describes code frames offsets i entry) ∧ Ends (reach code frames offsets) := by
  obtain ⟨hlength, hknown, hends, -⟩ :=
    @foldr_reachStep code offsets frames code 0 fun i => by rw [Nat.zero_add]
  rw [reach_eq]
  simp only [Nat.zero_add] at hknown
  exact ⟨hlength, hknown, hends⟩

/-- What elements of the code become: they stay or give way to as many bytes, and there can be new
labels anywhere. -/
inductive Replaces (labels : Nat) : List Reached → List (Instruction Label) → Prop
  | nil : Replaces labels [] []
  | mark {entries : List Reached} {code : List (Instruction Label)} {label : Label}
      (new : labels ≤ label.index) (rest : Replaces labels entries code) :
      Replaces labels entries (.label label :: code)
  | keep {entry : Reached} {entries : List Reached} {code : List (Instruction Label)}
      (live : entry.isDead = false) (rest : Replaces labels entries code) :
      Replaces labels (entry :: entries) (entry.insn :: code)
  | fill {entry : Reached} {entries : List Reached} {filling code : List (Instruction Label)}
      (dead : entry.isDead = true) (length : filling.length = entry.size)
      (plain : ∀ insn ∈ filling, ∃ op, insn = .plain op) (rest : Replaces labels entries code) :
      Replaces labels (entry :: entries) (filling ++ code)

theorem Replaces.append {more : List Reached} {code' : List (Instruction Label)}
    (h : Replaces labels entries code) (h' : Replaces labels more code') :
    Replaces labels (entries ++ more) (code ++ code') := by
  induction h with
  | nil => exact h'
  | mark new _ ih => exact .mark new ih
  | keep live _ ih => exact .keep live ih
  | fill dead length plain _ ih =>
    rw [List.append_assoc]
    exact .fill dead length plain ih

namespace Replacement

variable {state : Replacement}

/-- What holds of the code replaced so far, with the elements it came from. -/
structure Sound (labels : Nat) (done : List Reached) (state : Replacement) : Prop where
  code : Replaces labels done state.code.reverse
  more : labels ≤ state.labels
  runs : ∀ run ∈ state.runs, ∃ entry ∈ done, entry.isDead = true ∧ entry.offset = run.startOffset
  current : ∀ run ∈ state.current, ∃ entry ∈ done, entry.isDead = true ∧ entry.offset = run.2
  same : state.runs = [] → state.current = none → state.code.reverse = done.map Reached.insn

variable {done : List Reached} {entry : Reached}

structure Inside (labels : Nat) (done : List Reached) (entry : Reached) (state : Replacement) :
    Prop where
  code : Replaces labels done state.code.reverse
  more : labels ≤ state.labels
  runs : ∀ run ∈ state.runs, ∃ entry ∈ done, entry.isDead = true ∧ entry.offset = run.startOffset
  current : ∃ run, state.current = some run ∧
    ∃ other ∈ done ++ [entry], other.isDead = true ∧ other.offset = run.2

theorem Sound.enter (h : Sound labels done state) (hd : entry.isDead = true) :
    Inside labels done entry (state.enter entry.offset) := by
  unfold Replacement.enter
  split
  · rename_i run hrun
    obtain ⟨other, hm, ho⟩ := h.current run hrun
    exact ⟨h.code, h.more, h.runs, run, hrun, other, List.mem_append_left _ hm, ho⟩
  · refine ⟨?_, Nat.le_succ_of_le h.more, h.runs, _, rfl, entry, by simp, hd, rfl⟩
    rw [List.reverse_cons, ← List.append_nil done]
    exact h.code.append (.mark h.more .nil)

theorem Inside.fill (h : Inside labels done entry state) (hd : entry.isDead = true)
    {filling : List (Instruction Label)} (hl : filling.length = entry.size)
    (hp : ∀ insn ∈ filling, ∃ op, insn = .plain op) :
    Replaces labels (done ++ [entry]) (filling ++ state.code).reverse := by
  rw [List.reverse_append, ← List.append_nil filling.reverse]
  refine h.code.append (.fill hd (by rw [List.length_reverse, hl]) ?_ .nil)
  intro insn hm
  exact hp insn (List.mem_reverse.mp hm)

theorem Sound.step (h : Sound labels done state) (hs : entry.isDead = true → 0 < entry.size) :
    Sound labels (done ++ [entry]) (state.step entry) := by
  have hleft : ∀ {offset}, (∃ other ∈ done, other.isDead = true ∧ other.offset = offset) →
      ∃ other ∈ done ++ [entry], other.isDead = true ∧ other.offset = offset := by
    rintro offset ⟨other, hm, ho⟩
    exact ⟨other, List.mem_append_left _ hm, ho⟩
  unfold Replacement.step
  split
  · rename_i hlive
    have hlive : entry.isDead = false := by simpa using hlive
    refine ⟨?_, h.more, fun run hr => hleft (h.runs run hr),
      fun run hr => hleft (h.current run hr), ?_⟩
    · rw [List.reverse_cons]
      exact h.code.append (.keep hlive .nil)
    · intro hruns hcurrent
      rw [List.reverse_cons, h.same hruns hcurrent, List.map_append]
      rfl
  · rename_i hdead
    have hdead : entry.isDead = true := by simpa using hdead
    have hin := h.enter hdead
    obtain ⟨⟨start, offset⟩, hcurrent, hfrom⟩ := hin.current
    dsimp only
    split
    · have hlength : (.plain .athrow :: List.replicate (entry.size - 1) (.plain .nop) :
          List (Instruction Label)).length = entry.size := by
        have := hs hdead
        rw [List.length_cons, List.length_replicate]
        omega
      have hcode := hin.fill hdead hlength (by simp)
      simp only [leave, hcurrent]
      refine ⟨?_, Nat.le_succ_of_le hin.more, ?_, nofun, nofun⟩
      · rw [List.reverse_cons, ← List.append_nil (done ++ [entry])]
        exact hcode.append (.mark hin.more .nil)
      · intro run hr
        rcases List.mem_cons.mp hr with rfl | hr
        · exact hfrom
        · exact hleft (hin.runs run hr)
    · refine ⟨hin.fill hdead (by simp) (by simp), hin.more, fun run hr => hleft (hin.runs run hr),
        ?_, ?_⟩
      · intro run hr
        obtain rfl : (start, offset) = run := Option.some.inj (hcurrent.symm.trans hr)
        exact hfrom
      · intro _ hn
        rw [hcurrent] at hn
        cases hn

theorem current_leave (state : Replacement) : state.leave.current = none := by
  unfold leave
  split
  · assumption
  · rfl

theorem current_step (h : (state.step entry).current.isSome = true) :
    entry.isDead = false ∧ state.current.isSome = true ∨
      entry.isDead = true ∧ entry.isLast = false := by
  unfold step at h
  split at h
  · rename_i hlive
    exact .inl ⟨by simpa using hlive, h⟩
  · rename_i hdead
    dsimp only at h
    split at h
    · rw [current_leave] at h
      cases h
    · rename_i hlast
      exact .inr ⟨by simpa using hdead, by simpa using hlast⟩

/-- A run that has started ends with one of the elements to come. -/
theorem sound_foldl (h : Sound labels done state)
    (hs : ∀ entry ∈ entries, entry.isDead = true → 0 < entry.size) (he : Ends entries)
    (hopen : state.current.isSome = true → ∃ later ∈ entries, later.isDead = true) :
    Sound labels (done ++ entries) (entries.foldl Replacement.step state) ∧
      (entries.foldl Replacement.step state).current = none := by
  induction entries generalizing done state with
  | nil =>
    rw [List.append_nil]
    refine ⟨h, ?_⟩
    cases hc : state.current with
    | none => exact hc
    | some run =>
      obtain ⟨later, hm, -⟩ := hopen (by rw [hc]; rfl)
      cases hm
  | cons entry entries ih =>
    rw [List.foldl_cons, ← List.singleton_append, ← List.append_assoc]
    refine ih (h.step (hs entry List.mem_cons_self))
      (fun other hm => hs other (List.mem_cons_of_mem _ hm)) he.2 ?_
    intro hcurrent
    rcases current_step hcurrent with ⟨hlive, hsome⟩ | ⟨hdead, hlast⟩
    · obtain ⟨later, hm, hd⟩ := hopen hsome
      rcases List.mem_cons.mp hm with rfl | hm
      · rw [hlive] at hd
        cases hd
      · exact ⟨later, hm, hd⟩
    · exact he.1 hdead hlast

end Replacement

structure Replaced (labels : Nat) (entries : List Reached) (replaced : List (Instruction Label))
    (runs : List DeadRun) : Prop where
  code : Replaces labels entries replaced
  starts : ∀ run ∈ runs, ∃ entry ∈ entries, entry.isDead = true ∧ entry.offset = run.startOffset
  same : runs = [] → replaced = entries.map Reached.insn

theorem Laid.size_pos (h : Laid b code offsets) {index : Nat} {insn : Instruction Label}
    (hi : code[index]? = some insn) (hreal : insn.isMarker = false) :
    offsets.getD index 0 < offsets.getD (index + 1) 0 := by
  have hn := h.next hi
  have := Code.size_pos hreal hn.1
  omega

theorem Laid.marker (h : Laid b code offsets) {index : Nat} {insn : Instruction Label}
    (hi : code[index]? = some insn) (hmark : insn.isMarker = true) :
    offsets.getD (index + 1) 0 = offsets.getD index 0 := by
  have hn := h.next hi
  have := size_marker hmark hn.1
  omega

theorem Describes.real {index : Nat} {entry : Reached}
    (h : Describes code frames offsets index entry) (hd : entry.isDead = true) :
    entry.insn.isMarker = false ∧ frames.getD index none = none := by
  have := h.isDead.symm.trans hd
  simpa using this

theorem replaceDead_spec (h : Laid b code offsets) :
    Replaced labels (reach code frames offsets) (replaceDead code labels frames offsets).1
      (replaceDead code labels frames offsets).2.2 := by
  obtain ⟨hlength, hknown, hends⟩ := reach_spec code frames offsets
  have hstart : Replacement.Sound labels [] ⟨[], labels, [], none⟩ :=
    ⟨.nil, Nat.le_refl _, nofun, nofun, fun _ _ => rfl⟩
  have hsize : ∀ entry ∈ reach code frames offsets, entry.isDead = true → 0 < entry.size := by
    intro entry hm hd
    obtain ⟨index, hi⟩ := List.mem_iff_getElem?.mp hm
    have hdesc := hknown index entry hi
    have := h.size_pos hdesc.insn (hdesc.real hd).1
    rw [hdesc.size]
    omega
  obtain ⟨hsound, hnone⟩ := Replacement.sound_foldl hstart hsize hends nofun
  refine ⟨hsound.code, ?_, ?_⟩
  · intro run hr
    exact hsound.runs run (List.mem_reverse.mp hr)
  · intro hempty
    exact hsound.same (List.reverse_eq_nil_iff.mp hempty) hnone

theorem drop_eq_cons {rest : List (Instruction Label)} {insn : Instruction Label} {index : Nat}
    (h : code.drop index = insn :: rest) :
    code[index]? = some insn ∧ code.drop (index + 1) = rest := by
  constructor
  · rw [← Nat.add_zero index, ← List.getElem?_drop, h]
    rfl
  · rw [← List.drop_drop, h]
    rfl

/-- Instructions without operands take one byte each. -/
theorem Laid.plain (h : Laid b code offsets) {filling rest : List (Instruction Label)} {index : Nat}
    (hp : ∀ insn ∈ filling, ∃ op, insn = .plain op) (hc : code.drop index = filling ++ rest) :
    offsets.getD (index + filling.length) 0 = offsets.getD index 0 + filling.length := by
  induction filling generalizing index with
  | nil => rfl
  | cons insn filling ih =>
    obtain ⟨op, rfl⟩ := hp insn List.mem_cons_self
    obtain ⟨hat, hnext⟩ := drop_eq_cons hc
    have hsize := (yields_pure.mp (h.next hat).1).1
    have hle := (h.next hat).2
    have hrest := ih (fun other hm => hp other (List.mem_cons_of_mem _ hm)) hnext
    rw [List.length_cons, Nat.add_comm filling.length 1, ← Nat.add_assoc, hrest]
    omega

theorem describes_tail {i : Nat} {first : Reached} {rest : List Reached}
    (hc : ∀ k entry, (first :: rest)[k]? = some entry →
      Describes code frames offsets (i + k) entry) :
    ∀ k entry, rest[k]? = some entry → Describes code frames offsets (i + 1 + k) entry := by
  intro k entry hk
  have := hc (k + 1) entry hk
  rwa [Nat.add_assoc, Nat.add_comm 1]

/-- Elements that stay are where they were, also if the pool has grown. -/
theorem Replaces.offset {more : List (Instruction Label)} (h : Replaces labels entries more)
    (hl : Laid b code offsets) (hl' : Laid b' replaced offsets') (hw : b.Within b') {i j : Nat}
    (hc : ∀ k entry, entries[k]? = some entry → Describes code frames offsets (i + k) entry)
    (hr : replaced.drop j = more) (hij : offsets'.getD j 0 = offsets.getD i 0) {k : Nat}
    {entry : Reached} (hk : entries[k]? = some entry) (hlive : entry.isDead = false) :
    ∃ l, replaced[l]? = some entry.insn ∧ offsets'.getD l 0 = offsets.getD (i + k) 0 := by
  induction h generalizing i j k with
  | nil => cases hk
  | mark _ _ ih =>
    obtain ⟨hat, hrest⟩ := drop_eq_cons hr
    exact ih hc hrest ((hl'.marker hat rfl).trans hij) hk
  | @keep kept entries more _ _ ih =>
    obtain ⟨hat, hrest⟩ := drop_eq_cons hr
    cases k with
    | zero =>
      obtain rfl : kept = entry := by simpa using hk
      exact ⟨j, hat, hij⟩
    | succ k =>
      have hdesc : Describes code frames offsets i kept := hc 0 kept rfl
      have hnext := hl.next hdesc.insn
      have hnext' := hl'.next hat
      rw [hij] at hnext'
      have hsize := ((lawful_size _ _).again hnext.1 hw).value_eq hnext'.1
      obtain ⟨l, hl, ho⟩ := ih (i := i + 1) (describes_tail hc) hrest (by omega) hk
      exact ⟨l, hl, by rw [ho, Nat.add_assoc, Nat.add_comm 1]⟩
  | @fill filled entries filling more dead length plain _ ih =>
    cases k with
    | zero =>
      obtain rfl : filled = entry := by simpa using hk
      rw [hlive] at dead
      cases dead
    | succ k =>
      have hdesc : Describes code frames offsets i filled := hc 0 filled rfl
      have hnext := (hl.next hdesc.insn).2
      have hplain := hl'.plain plain hr
      have hrest : replaced.drop (j + filling.length) = more := by
        rw [← List.drop_drop, hr, List.drop_left]
      have hsize := length.trans hdesc.size
      obtain ⟨l, hl, ho⟩ := ih (i := i + 1) (describes_tail hc) hrest (by omega) hk
      exact ⟨l, hl, by rw [ho, Nat.add_assoc, Nat.add_comm 1]⟩

/-- The code ends where it ended. -/
theorem Replaces.last {more : List (Instruction Label)} (h : Replaces labels entries more)
    (hl : Laid b code offsets) (hl' : Laid b' replaced offsets') (hw : b.Within b') {i j : Nat}
    (hc : ∀ k entry, entries[k]? = some entry → Describes code frames offsets (i + k) entry)
    (hr : replaced.drop j = more) (hj : j ≤ replaced.length)
    (hij : offsets'.getD j 0 = offsets.getD i 0) :
    offsets'.getD replaced.length 0 = offsets.getD (i + entries.length) 0 := by
  induction h generalizing i j with
  | nil =>
    obtain rfl : j = replaced.length := Nat.le_antisymm hj (List.drop_eq_nil_iff.mp hr)
    exact hij
  | mark _ _ ih =>
    obtain ⟨hat, hrest⟩ := drop_eq_cons hr
    exact ih hc hrest (List.getElem?_eq_some_iff.mp hat).1 ((hl'.marker hat rfl).trans hij)
  | @keep kept entries more _ _ ih =>
    obtain ⟨hat, hrest⟩ := drop_eq_cons hr
    have hdesc : Describes code frames offsets i kept := hc 0 kept rfl
    have hnext := hl.next hdesc.insn
    have hnext' := hl'.next hat
    rw [hij] at hnext'
    have hsize := ((lawful_size _ _).again hnext.1 hw).value_eq hnext'.1
    rw [List.length_cons, Nat.add_comm entries.length 1, ← Nat.add_assoc]
    exact ih (describes_tail hc) hrest (List.getElem?_eq_some_iff.mp hat).1 (by omega)
  | @fill filled entries filling more dead length plain _ ih =>
    have hdesc : Describes code frames offsets i filled := hc 0 filled rfl
    have hnext := (hl.next hdesc.insn).2
    have hplain := hl'.plain plain hr
    have hrest : replaced.drop (j + filling.length) = more := by
      rw [← List.drop_drop, hr, List.drop_left]
    have hsize := length.trans hdesc.size
    have hfits : j + filling.length ≤ replaced.length := by
      have := congrArg List.length hr
      rw [List.length_drop, List.length_append] at this
      omega
    rw [List.length_cons, Nat.add_comm entries.length 1, ← Nat.add_assoc]
    exact ih (describes_tail hc) hrest hfits (by omega)

theorem map_insn_reach (code : List (Instruction Label)) (frames : Array (Option Flow.SlotFrame))
    (offsets : Offsets) : (reach code frames offsets).map Reached.insn = code := by
  obtain ⟨hlength, hknown, -⟩ := reach_spec code frames offsets
  refine List.ext_getElem? fun i => ?_
  rw [List.getElem?_map]
  cases hi : (reach code frames offsets)[i]? with
  | none =>
    rw [List.getElem?_eq_none_iff, hlength] at hi
    rw [List.getElem?_eq_none hi]
    rfl
  | some entry => exact (hknown i entry hi).insn.symm

/-- Labels from before are placed as often as before. -/
theorem Replaces.count (h : Replaces labels entries replaced) {label : Label}
    (hl : label.index < labels)
    (hreal : ∀ entry ∈ entries, entry.isDead = true → entry.insn.isMarker = false) :
    (replaced.filterMap Instruction.placed?).count label =
      ((entries.map Reached.insn).filterMap Instruction.placed?).count label := by
  induction h with
  | nil => rfl
  | @mark entries code new hnew _ ih =>
    have hne : new ≠ label := by
      rintro rfl
      omega
    have hcons : (Instruction.label new :: code).filterMap Instruction.placed? =
        new :: code.filterMap Instruction.placed? := rfl
    rw [hcons, List.count_cons_of_ne hne]
    exact ih hreal
  | @keep entry entries code _ _ ih =>
    have := ih fun other hm => hreal other (List.mem_cons_of_mem _ hm)
    rw [List.map_cons, List.filterMap_cons, List.filterMap_cons]
    split
    · exact this
    · rw [List.count_cons, List.count_cons, this]
  | @fill entry entries filling code dead _ plain _ ih =>
    have hfilling : filling.filterMap Instruction.placed? = [] := by
      refine List.filterMap_eq_nil_iff.mpr fun insn hm => ?_
      obtain ⟨op, rfl⟩ := plain insn hm
      rfl
    have hnone : entry.insn.placed? = none := by
      have := hreal entry List.mem_cons_self dead
      cases hi : entry.insn with
      | label _ =>
        rw [hi] at this
        cases this
      | _ => rfl
    rw [List.filterMap_append, hfilling, List.nil_append, List.map_cons,
      List.filterMap_cons_none hnone]
    exact ih fun other hm => hreal other (List.mem_cons_of_mem _ hm)

/-- What is reached is still there, and where it was. -/
theorem Replaced.exists_kept {runs : List DeadRun}
    (h : Replaced labels (reach code frames offsets) replaced runs) (hl : Laid b code offsets)
    (hl' : Laid b' replaced offsets') (hw : b.Within b') {index : Nat} {insn : Instruction Label}
    (hi : code[index]? = some insn)
    (hlive : (!insn.isMarker && (frames.getD index none).isNone) = false) :
    ∃ place, replaced[place]? = some insn ∧ offsets'.getD place 0 = offsets.getD index 0 := by
  obtain ⟨hlength, hknown, -⟩ := reach_spec code frames offsets
  have hlt : index < (reach code frames offsets).length := by
    rw [hlength]
    exact (List.getElem?_eq_some_iff.mp hi).1
  have hentry := List.getElem?_eq_getElem hlt
  have hdesc := hknown index _ hentry
  obtain rfl := Option.some.inj (hdesc.insn.symm.trans hi)
  obtain ⟨place, hat, ho⟩ := h.code.offset (i := 0) (j := 0) hl hl' hw
    (fun k entry hk => by rw [Nat.zero_add]; exact hknown k entry hk) List.drop_zero
    (by rw [hl.first, hl'.first]) hentry (hdesc.isDead.trans hlive)
  exact ⟨place, hat, by rw [ho, Nat.zero_add]⟩

/-- A label from before is where it was. -/
theorem Replaced.at_eq {runs : List DeadRun}
    (h : Replaced labels (reach code frames offsets) replaced runs) (hl : Laid b code offsets)
    (hl' : Laid b' replaced offsets') (hw : b.Within b') {label : Label}
    (hold : label.index < labels) (honce : (code.filterMap Instruction.placed?).count label = 1) :
    (LabelOffsets.ofCode replaced offsets').at label =
      (LabelOffsets.ofCode code offsets).at label := by
  obtain ⟨-, hknown, -⟩ := reach_spec code frames offsets
  obtain ⟨i, hi, -, hat⟩ := @exists_at_of_once code label offsets honce
  have honce' : (replaced.filterMap Instruction.placed?).count label = 1 := by
    rw [h.code.count hold, map_insn_reach, honce]
    intro entry hm hd
    obtain ⟨index, hi⟩ := List.mem_iff_getElem?.mp hm
    exact ((hknown index entry hi).real hd).1
  obtain ⟨j, -, hunique, hat'⟩ := @exists_at_of_once replaced label offsets' honce'
  obtain ⟨place, hplace, ho⟩ := h.exists_kept hl hl' hw hi rfl
  rw [hat, hat', ← hunique place hplace, ho]

end ClassTree.Code
