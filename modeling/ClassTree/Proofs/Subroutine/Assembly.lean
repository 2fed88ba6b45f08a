import ClassTree.Proofs.Subroutine.Cloning
import Mathlib.Data.List.Perm.Subperm

namespace ClassTree.Subroutine

variable {job : Job} {body : Subroutine} {nesting called : Nesting} {lo hi : Nat}

def Nesting.Stands (nesting : Nesting) (clone : Label) : Prop :=
  ∃ label : Label, nesting.inner.labels[label]? = some clone

def Nesting.Apart (nesting other : Nesting) : Prop :=
  ∀ clone, nesting.Stands clone → ¬ other.Stands clone

def placedIn (code : List (Instruction Label)) : List Label :=
  code.filterMap Instruction.placed?

structure Pending (job : Job) (body : Subroutine) (lo hi : Nat) (nesting : Nesting) : Prop where
  members : ∀ inst ∈ nesting.inner :: nesting.outer, inst.subroutine ∈ body :: job.subroutines
  distinct : ((nesting.inner :: nesting.outer).map (·.subroutine.entry)).Nodup
  clones : ∃ first last, lo ≤ first ∧ last ≤ hi ∧
    Clones nesting.owns job.outline.method.body.code nesting.inner.labels first last

theorem Pending.within (h : Pending job body lo hi nesting) {clone : Label}
    (hs : nesting.Stands clone) : lo ≤ clone.index ∧ clone.index < hi := by
  obtain ⟨first, last, hlo, hhi, hc⟩ := h.clones
  obtain ⟨label, hl⟩ := hs
  have := hc.within hl
  omega

theorem Pending.mono (h : Pending job body lo hi nesting) {lo' hi' : Nat} (hlo : lo' ≤ lo)
    (hhi : hi ≤ hi') : Pending job body lo' hi' nesting := by
  obtain ⟨first, last, hfirst, hlast, hc⟩ := h.clones
  exact ⟨h.members, h.distinct, first, last, Nat.le_trans hlo hfirst, Nat.le_trans hlast hhi, hc⟩

/-- An instance for a call, the label that it is entered at, and the label after the call. -/
structure CallFor (job : Job) (nesting : Nesting) (target : Label) (called : Nesting)
    (entry back : Label) : Prop where
  enters : job.jumpLabel called target = .ok entry
  returns : called.inner.returnLabel = some back

def callPiece (entry back : Label) : List (Instruction Label) :=
  [.plain .aconstNull, .jump .goto entry, .label back]

theorem emitCall_pending (hn : job.outline.method.body.placed.Nodup)
    (hp : Pending job body lo hi nesting) {target : Label} {state state' : Emission}
    (h : job.emitCall nesting target state = .ok state') :
    ∃ called entry, CallFor job nesting target called entry ⟨state.supply⟩ ∧
      Pending job body (state.supply + 1) state'.supply called ∧
      called.outer = nesting.inner :: nesting.outer ∧ state.supply < state'.supply ∧
      state'.code = (callPiece entry ⟨state.supply⟩).reverse ++ state.code ∧
      state'.calls = called :: state.calls ∧ state'.previous = state.previous := by
  unfold Job.emitCall at h
  split at h
  · cases h
  · rename_i subroutine hs
    obtain ⟨⟨called, supply⟩, hi, h⟩ := bind_eq_ok.mp h
    obtain ⟨entry, he, h⟩ := bind_eq_ok.mp h
    obtain rfl := pure_eq_ok.mp h
    obtain ⟨hsub, hback, hout⟩ := instantiate_ok hi
    have hclones := clones_instantiate hn hi
    have houter : called.outer = nesting.inner :: nesting.outer := hout
    refine ⟨called, entry, ⟨he, hback⟩, ⟨?_, ?_, _, _, Nat.le_refl _, Nat.le_refl _, hclones⟩,
      houter, hclones.below, ?_, rfl, rfl⟩
    · intro inst hm
      rcases List.mem_cons.mp hm with rfl | hm
      · exact hsub ▸ List.mem_cons_of_mem _ (List.mem_of_find?_eq_some hs)
      · exact hp.members inst (houter ▸ hm)
    · rw [List.map_cons, houter, List.nodup_cons]
      refine ⟨fun hm => ?_, hp.distinct⟩
      obtain ⟨other, ho, he⟩ := List.mem_map.mp hm
      exact entry_instantiate hi nesting rfl other ho (hsub ▸ he)
    · simp [hback, callPiece]

/-- What has been emitted for some of the code, the labels handed out since then being new. -/
structure Emitting (job : Job) (body : Subroutine) (nesting : Nesting) (supply : Nat)
    (code : List (Instruction Label)) (pieces : List (List (Instruction Label)))
    (state : Emission) : Prop where
  made : List.Forall₂ (fun entry piece => Piece job nesting entry.2 entry.1 piece)
    code.zipIdx pieces
  emitted : state.code = pieces.flatten.reverse
  grows : supply ≤ state.supply
  calls : ∀ {i : Nat} {target : Label}, code[i]? = some (.jump .jsr target) →
    nesting.owns i = true → ∃ called ∈ state.calls, ∃ entry back,
      pieces[i]? = some (callPiece entry back) ∧ CallFor job nesting target called entry back
  pending : ∀ called ∈ state.calls, Pending job body supply state.supply called ∧
    called.outer = nesting.inner :: nesting.outer
  apart : state.calls.Pairwise Nesting.Apart
  unplaced : ∀ called ∈ state.calls, ∀ label ∈ placedIn state.code, ¬ called.Stands label
  nodup : (placedIn state.code).Nodup
  /-- Labels that are placed stand for labels so far, or come after a call. -/
  known : ∀ label ∈ placedIn state.code,
    (nesting.Stands label ∧ ∃ latest, state.previous = some latest ∧ label.index ≤ latest.index) ∨
      supply ≤ label.index ∧ label.index < state.supply
  latest : ∀ {clone : Label}, state.previous = some clone → ∃ (i : Nat) (label : Label),
    code[i]? = some (.label label) ∧ nesting.inner.labels[label]? = some clone ∧
      pieces[i]? = some [.label clone]
  places : ∀ {i : Nat} {label clone : Label}, code[i]? = some (.label label) →
    nesting.inner.labels[label]? = some clone → ∃ (j : Nat) (first : Label), j ≤ i ∧
      code[j]? = some (.label first) ∧ nesting.inner.labels[first]? = some clone ∧
      pieces[j]? = some [.label clone]
  returns : ∀ called ∈ state.calls, ∀ back ∈ called.inner.returnLabel, back ∈ placedIn state.code

variable {supply : Nat} {code : List (Instruction Label)}
  {pieces : List (List (Instruction Label))} {state state' : Emission} {insn : Instruction Label}
  {piece : List (Instruction Label)}

theorem Emitting.length_eq (h : Emitting job body nesting supply code pieces state) :
    pieces.length = code.length := by
  have hl := h.made.length_eq
  rwa [List.length_zipIdx, eq_comm] at hl

theorem Emitting.pieces_append (h : Emitting job body nesting supply code pieces state)
    (hp : Piece job nesting code.length insn piece) :
    List.Forall₂ (fun entry piece => Piece job nesting entry.2 entry.1 piece)
      (code ++ [insn]).zipIdx (pieces ++ [piece]) := by
  rw [List.zipIdx_append]
  exact List.rel_append h.made (.cons (by simpa using hp) .nil)

theorem Emitting.emitted_append (h : Emitting job body nesting supply code pieces state)
    (hcode : state'.code = piece.reverse ++ state.code) :
    state'.code = (pieces ++ [piece]).flatten.reverse := by
  rw [hcode, h.emitted]
  simp

theorem getElem?_concat_of {α : Type} {l : List α} {a b : α} {i : Nat} (h : l[i]? = some b) :
    (l ++ [a])[i]? = some b :=
  getElem?_concat_eq_some.mpr (.inl h)

/-- Calls so far stay where they are when an element is added that is none. -/
theorem Emitting.calls_concat (h : Emitting job body nesting supply code pieces state)
    (hno : nesting.owns code.length = true → callTarget? insn = none) {i : Nat} {target : Label}
    (hi : (code ++ [insn])[i]? = some (.jump .jsr target)) (own : nesting.owns i = true) :
    ∃ called ∈ state.calls, ∃ entry back,
      (pieces ++ [piece])[i]? = some (callPiece entry back) ∧
        CallFor job nesting target called entry back := by
  rcases getElem?_concat_eq_some.mp hi with hi | ⟨rfl, rfl⟩
  · obtain ⟨called, hm, entry, back, hpiece, hcall⟩ := h.calls hi own
    exact ⟨called, hm, entry, back, getElem?_concat_of hpiece, hcall⟩
  · cases hno own

/-- Labels so far are placed where they were. -/
theorem Emitting.places_concat (h : Emitting job body nesting supply code pieces state) {i : Nat}
    {label clone : Label} (hi : code[i]? = some (.label label))
    (hl : nesting.inner.labels[label]? = some clone) : ∃ (j : Nat) (first : Label), j ≤ i ∧
      (code ++ [insn])[j]? = some (.label first) ∧ nesting.inner.labels[first]? = some clone ∧
      (pieces ++ [piece])[j]? = some [.label clone] := by
  obtain ⟨j, first, hj, hf, hc, hpiece⟩ := h.places hi hl
  exact ⟨j, first, hj, getElem?_concat_of hf, hc, getElem?_concat_of hpiece⟩

/-- An element that is no label and does not call adds no label. -/
theorem Emitting.quiet (h : Emitting job body nesting supply code pieces state)
    (hp : Piece job nesting code.length insn piece) (hlabel : insn.placed? = none)
    (hno : nesting.owns code.length = true → callTarget? insn = none)
    (hcode : state'.code = piece.reverse ++ state.code) (hsupply : state'.supply = state.supply)
    (hprevious : state'.previous = state.previous) (hcalls : state'.calls = state.calls) :
    Emitting job body nesting supply (code ++ [insn]) (pieces ++ [piece]) state' := by
  have hnone : placedIn piece = [] := by
    cases hp with
    | label | shared => cases hlabel
    | hidden | frame | ret => rfl
    | call own => cases hno own
    | copy own element noFrame noReturn noCall resolved =>
      obtain ⟨found, -, hr⟩ := bind_eq_ok.mp resolved
      rw [← pure_eq_ok.mp hr, placedIn, List.filterMap_cons, Instruction.placed?_mapLabels, hlabel]
      rfl
  have hplaced : placedIn state'.code = placedIn state.code := by
    rw [hcode, placedIn, List.filterMap_append, List.filterMap_reverse]
    change (placedIn piece).reverse ++ _ = _
    rw [hnone]
    rfl
  have hold : ∀ {i : Nat} {label : Label}, (code ++ [insn])[i]? = some (.label label) →
      code[i]? = some (.label label) := by
    intro i label hi
    refine (getElem?_concat_eq_some.mp hi).resolve_right ?_
    rintro ⟨-, rfl⟩
    cases hlabel
  exact
    { made := h.pieces_append hp
      emitted := h.emitted_append hcode
      grows := hsupply ▸ h.grows
      calls := by
        rw [hcalls]
        exact h.calls_concat hno
      pending := by
        rw [hcalls, hsupply]
        exact h.pending
      apart := by
        rw [hcalls]
        exact h.apart
      unplaced := by
        rw [hcalls, hplaced]
        exact h.unplaced
      nodup := by
        rw [hplaced]
        exact h.nodup
      known := by
        rw [hplaced, hprevious, hsupply]
        exact h.known
      latest := by
        intro clone hc
        obtain ⟨i, label, hi, hl, hpiece⟩ := h.latest (hprevious ▸ hc)
        exact ⟨i, label, getElem?_concat_of hi, hl, getElem?_concat_of hpiece⟩
      places := fun hi hl => h.places_concat (hold hi) hl
      returns := by
        rw [hcalls, hplaced]
        exact h.returns }

/-- A call adds the label after it, and an instance whose labels are new as well. -/
theorem Emitting.call (h : Emitting job body nesting supply code pieces state)
    (hn : job.outline.method.body.placed.Nodup) (hp : Pending job body lo supply nesting)
    {target : Label} (own : nesting.owns code.length = true)
    (he : job.emitCall nesting target state = .ok state') : ∃ piece,
      Emitting job body nesting supply (code ++ [.jump .jsr target])
        (pieces ++ [piece]) state' := by
  obtain ⟨called, entry, hcall, hpending, houter, hlt, hcode, hcalls, hprevious⟩ :=
    emitCall_pending hn hp he
  obtain ⟨piece, hpiece, hemits⟩ := emitCall_ok own he
  obtain rfl : piece = callPiece entry ⟨state.supply⟩ := by
    have := List.append_cancel_right (hemits.code.symm.trans hcode)
    exact List.reverse_injective this
  have hplaced : placedIn state'.code = ⟨state.supply⟩ :: placedIn state.code := by
    rw [hcode]
    rfl
  have hbelow : ∀ label ∈ placedIn state.code, label.index < state.supply := by
    intro label hm
    rcases h.known label hm with ⟨hs, -⟩ | ⟨-, hlt⟩
    · exact Nat.lt_of_lt_of_le (hp.within hs).2 h.grows
    · exact hlt
  have hgrows := h.grows
  exact ⟨callPiece entry ⟨state.supply⟩,
    { made := h.pieces_append hpiece
      emitted := h.emitted_append hcode
      grows := by omega
      calls := by
        intro i target' hi own'
        rw [hcalls]
        rcases getElem?_concat_eq_some.mp hi with hi | ⟨rfl, ht⟩
        · obtain ⟨called', hm, entry', back, hpiece', hcall'⟩ := h.calls hi own'
          exact ⟨called', List.mem_cons_of_mem _ hm, entry', back, getElem?_concat_of hpiece',
            hcall'⟩
        · obtain rfl := (Instruction.jump.inj ht).2
          refine ⟨called, List.mem_cons_self, entry, _, ?_, hcall⟩
          rw [← h.length_eq]
          exact List.getElem?_concat_length
      pending := by
        intro other hm
        rw [hcalls] at hm
        rcases List.mem_cons.mp hm with rfl | hm
        · exact ⟨hpending.mono (by omega) (Nat.le_refl _), houter⟩
        · exact ⟨(h.pending other hm).1.mono (Nat.le_refl _) (Nat.le_of_lt hlt),
            (h.pending other hm).2⟩
      apart := by
        rw [hcalls]
        refine List.pairwise_cons.mpr ⟨fun other hm clone hs hs' => ?_, h.apart⟩
        have := hpending.within hs
        have := (h.pending other hm).1.within hs'
        omega
      unplaced := by
        intro other hm label hl hs
        rw [hcalls] at hm
        rw [hplaced] at hl
        rcases List.mem_cons.mp hm with rfl | hm <;> rcases List.mem_cons.mp hl with rfl | hl
        · exact absurd (hpending.within hs).1 (Nat.not_succ_le_self _)
        · have := (hpending.within hs).1
          have := hbelow label hl
          omega
        · exact absurd ((h.pending other hm).1.within hs).2 (Nat.lt_irrefl _)
        · exact h.unplaced other hm label hl hs
      nodup := by
        rw [hplaced]
        exact List.nodup_cons.mpr ⟨fun hm => Nat.lt_irrefl _ (hbelow _ hm), h.nodup⟩
      known := by
        intro label hl
        rw [hplaced] at hl
        rcases List.mem_cons.mp hl with rfl | hl
        · exact .inr ⟨h.grows, hlt⟩
        · rw [hprevious]
          exact (h.known label hl).imp_right fun ⟨hlo, hhi⟩ => ⟨hlo, Nat.lt_trans hhi hlt⟩
      latest := by
        intro clone hc
        obtain ⟨i, label, hi, hl, hpiece'⟩ := h.latest (hprevious ▸ hc)
        exact ⟨i, label, getElem?_concat_of hi, hl, getElem?_concat_of hpiece'⟩
      places := by
        intro i label clone hi hl
        have hi := (getElem?_concat_eq_some.mp hi).resolve_right fun ⟨_, he⟩ => nomatch he
        exact h.places_concat hi hl
      returns := by
        intro other hm back hb
        rw [hcalls] at hm
        rw [hplaced]
        rcases List.mem_cons.mp hm with rfl | hm
        · obtain rfl := Option.some.inj (hcall.returns.symm.trans hb)
          exact List.mem_cons_self
        · exact List.mem_cons_of_mem _ (h.returns other hm back hb) }⟩

/-- Labels are handed out in the order of the code, so the next one comes after those so far. -/
theorem Emitting.latest_lt (h : Emitting job body nesting supply code pieces state)
    (hp : Pending job body lo supply nesting) {label latest clone : Label}
    (hpre : code ++ [.label label] <+: job.outline.method.body.code)
    (hstands : nesting.inner.labels[label]? = some clone) (hother : state.previous ≠ some clone)
    (hlatest : state.previous = some latest) : latest.index < clone.index := by
  have hfull : ∀ {i : Nat} {other : Label}, (code ++ [.label label])[i]? = some (.label other) →
      job.outline.method.body.code[i]? = some (.label other) := by
    intro i other hi
    obtain ⟨more, hmore⟩ := hpre
    rw [← hmore, List.getElem?_append_left (List.getElem?_eq_some_iff.mp hi).1, hi]
  obtain ⟨first, last, -, -, hc⟩ := hp.clones
  obtain ⟨i, found, hi, hf, -⟩ := h.latest hlatest
  have hle := hc.ordered (hfull (getElem?_concat_of hi)) (hfull List.getElem?_concat_length) hf
    hstands (Nat.le_of_lt (List.getElem?_eq_some_iff.mp hi).1)
  refine Nat.lt_of_le_of_ne hle fun he => hother ?_
  rw [hlatest, show latest = clone from congrArg Label.mk he]

/-- A label that shares its clone with the one before adds nothing. -/
theorem Emitting.share (h : Emitting job body nesting supply code pieces state)
    {label clone : Label} (hstands : nesting.inner.labels[label]? = some clone)
    (hshared : state.previous = some clone) :
    Emitting job body nesting supply (code ++ [.label label]) (pieces ++ [[]]) state :=
  { h with
    made := h.pieces_append (.shared hstands)
    emitted := h.emitted_append rfl
    calls := h.calls_concat fun _ => rfl
    latest := by
      intro other ho
      obtain ⟨i, found, hi, hl, hpiece⟩ := h.latest ho
      exact ⟨i, found, getElem?_concat_of hi, hl, getElem?_concat_of hpiece⟩
    places := by
      intro i other found hi ho
      rcases getElem?_concat_eq_some.mp hi with hi | ⟨rfl, he⟩
      · exact h.places_concat hi ho
      · obtain rfl := Instruction.label.inj he
        obtain rfl := Option.some.inj (hstands.symm.trans ho)
        obtain ⟨j, first, hj, hf, hpiece⟩ := h.latest hshared
        exact ⟨j, first, Nat.le_of_lt (List.getElem?_eq_some_iff.mp hj).1, getElem?_concat_of hj,
          hf, getElem?_concat_of hpiece⟩ }

/-- A clone that comes after all so far is placed. -/
theorem Emitting.place (h : Emitting job body nesting supply code pieces state)
    (hp : Pending job body lo supply nesting) {label clone : Label}
    (hstands : nesting.inner.labels[label]? = some clone)
    (hlater : ∀ {latest : Label}, state.previous = some latest → latest.index < clone.index) :
    Emitting job body nesting supply (code ++ [.label label]) (pieces ++ [[.label clone]])
      { state with previous := some clone, code := .label clone :: state.code } := by
  have hself := hp.within ⟨label, hstands⟩
  have hnew : clone ∉ placedIn state.code := by
    intro hm
    rcases h.known clone hm with ⟨-, latest, hl, hle⟩ | ⟨hge, -⟩
    · have := hlater hl
      omega
    · omega
  have hpiece : (pieces ++ [[Instruction.label clone]])[code.length]? = some [.label clone] := by
    rw [← h.length_eq]
    exact List.getElem?_concat_length
  exact
    { made := h.pieces_append (.label hstands)
      emitted := h.emitted_append rfl
      grows := h.grows
      calls := h.calls_concat fun _ => rfl
      pending := h.pending
      apart := h.apart
      unplaced := by
        intro called hm other ho hs
        rcases List.mem_cons.mp ho with rfl | ho
        · have := ((h.pending called hm).1.within hs).1
          omega
        · exact h.unplaced called hm other ho hs
      nodup := List.nodup_cons.mpr ⟨hnew, h.nodup⟩
      known := by
        intro other ho
        rcases List.mem_cons.mp ho with rfl | ho
        · exact .inl ⟨⟨label, hstands⟩, other, rfl, Nat.le_refl _⟩
        · rcases h.known other ho with ⟨hs, latest, hl, hle⟩ | hrest
          · exact .inl ⟨hs, clone, rfl, Nat.le_of_lt (Nat.lt_of_le_of_lt hle (hlater hl))⟩
          · exact .inr hrest
      latest := by
        rintro other ⟨⟩
        exact ⟨code.length, label, List.getElem?_concat_length, hstands, hpiece⟩
      places := by
        intro i other found hi ho
        rcases getElem?_concat_eq_some.mp hi with hi | ⟨rfl, he⟩
        · exact h.places_concat hi ho
        · obtain rfl := Instruction.label.inj he
          obtain rfl := Option.some.inj (hstands.symm.trans ho)
          exact ⟨code.length, label, Nat.le_refl _, List.getElem?_concat_length, hstands, hpiece⟩
      returns := fun called hm back hb => List.mem_cons_of_mem _ (h.returns called hm back hb) }

/-- A label is placed, unless the one before stands for it, too. -/
theorem Emitting.label (h : Emitting job body nesting supply code pieces state)
    (hp : Pending job body lo supply nesting) {label clone : Label}
    (hpre : code ++ [.label label] <+: job.outline.method.body.code)
    (hstands : nesting.inner.labels[label]? = some clone)
    (hstate : state' = if state.previous = some clone then state
      else { state with previous := some clone, code := .label clone :: state.code }) : ∃ piece,
      Emitting job body nesting supply (code ++ [.label label]) (pieces ++ [piece]) state' := by
  by_cases hshared : state.previous = some clone
  · rw [hstate, if_pos hshared]
    exact ⟨[], h.share hstands hshared⟩
  · rw [hstate, if_neg hshared]
    exact ⟨[.label clone], h.place hp hstands (h.latest_lt hp hpre hstands hshared)⟩

theorem stands_of_rangeLabel {label clone : Label}
    (h : job.rangeLabel nesting label = .ok clone) :
    nesting.inner.labels[label]? = some clone := by
  unfold Job.rangeLabel at h
  split at h
  · rename_i hs
    exact Except.ok.inj h ▸ hs
  · cases h

theorem Emitting.step (h : Emitting job body nesting supply code pieces state)
    (hn : job.outline.method.body.placed.Nodup) (hp : Pending job body lo supply nesting)
    (hpre : code ++ [insn] <+: job.outline.method.body.code)
    (he : job.emitElement nesting state (insn, code.length) = .ok state') :
    ∃ piece, Emitting job body nesting supply (code ++ [insn]) (pieces ++ [piece]) state' := by
  obtain ⟨piece, hpiece, hemits⟩ := emitElement_ok he
  unfold Job.emitElement at he
  split at he
  · rename_i label hl
    obtain ⟨clone, hc, he⟩ := bind_eq_ok.mp he
    obtain rfl : insn = .label label := by
      cases insn <;> simp_all [Instruction.placed?]
    refine h.label hp hpre (stands_of_rangeLabel hc) ?_
    split at he
    · rename_i hshared
      rw [if_pos hshared]
      exact (pure_eq_ok.mp he).symm
    · rename_i hshared
      rw [if_neg hshared]
      exact (pure_eq_ok.mp he).symm
  · rename_i hlabel
    split at he
    · rename_i own
      unfold Job.emitOwned at he
      dsimp only at he
      split at he
      · split at he
        · obtain rfl := pure_eq_ok.mp he
          exact ⟨piece, h.quiet hpiece rfl (fun _ => rfl) hemits.code rfl rfl rfl⟩
        · cases he
      · exact h.call hn hp own he
      · obtain rfl := pure_eq_ok.mp he
        exact ⟨piece, h.quiet hpiece rfl (fun _ => rfl) hemits.code rfl rfl rfl⟩
      · rename_i hret hcall hframe
        obtain ⟨copied, -, he⟩ := bind_eq_ok.mp he
        obtain rfl := pure_eq_ok.mp he
        refine ⟨piece, h.quiet hpiece hlabel (fun _ => ?_) hemits.code rfl rfl rfl⟩
        unfold callTarget?
        split
        · rename_i target
          exact absurd rfl (hcall target)
        · rfl
    · rename_i own
      obtain rfl := pure_eq_ok.mp he
      exact ⟨piece, h.quiet hpiece hlabel (fun ho => absurd ho own) hemits.code rfl rfl rfl⟩

/-- What has been emitted after some of the code. -/
theorem emitting_foldlM (hn : job.outline.method.body.placed.Nodup)
    (hp : Pending job body lo supply nesting) (hpre : code <+: job.outline.method.body.code)
    (h : code.zipIdx.foldlM (job.emitElement nesting) ⟨supply, none, [], []⟩ = .ok state) :
    ∃ pieces, Emitting job body nesting supply code pieces state := by
  induction code using List.reverseRecOn generalizing state with
  | nil =>
    obtain rfl := pure_eq_ok.mp h
    exact ⟨[], by constructor <;> simp [placedIn]⟩
  | append_singleton code insn ih =>
    rw [List.zipIdx_append, List.foldlM_append] at h
    obtain ⟨middle, hmiddle, h⟩ := bind_eq_ok.mp h
    obtain ⟨pieces, hpieces⟩ := ih ((List.prefix_append _ _).trans hpre) hmiddle
    have h : ([(insn, code.length)].foldlM (job.emitElement nesting) middle) = .ok state := by
      simpa using h
    obtain ⟨last, hlast, h⟩ := bind_eq_ok.mp h
    obtain rfl := pure_eq_ok.mp h
    obtain ⟨piece, hpiece⟩ := hpieces.step hn hp hpre hlast
    exact ⟨_, hpiece⟩

structure Complete (job : Job) (body : Subroutine) (copy : Copy) : Prop where
  pending : ∃ hi, Pending job body 0 hi copy.nesting
  places : ∀ {i : Nat} {label clone : Label},
    job.outline.method.body.code[i]? = some (.label label) →
    copy.nesting.inner.labels[label]? = some clone → ∃ (j : Nat) (first : Label), j ≤ i ∧
      job.outline.method.body.code[j]? = some (.label first) ∧
      copy.nesting.inner.labels[first]? = some clone ∧ copy.pieces[j]? = some [.label clone]

/-- Copies for some instances, while others still wait, those that are emitted next and those
called by the copies so far. The latter are nested deeper by one. -/
structure Assembly (job : Job) (body : Subroutine) (depth : Nat) (copies : List Copy)
    (state : Inlined) (todo : List Nesting) : Prop where
  copied : Copied job body copies state.code.reverse
  complete : ∀ copy ∈ copies, Complete job body copy
  calls : ∀ copy ∈ copies, ∀ {i : Nat} {target : Label},
    job.outline.method.body.code[i]? = some (.jump .jsr target) → copy.nesting.owns i = true →
    ∃ called entry back, copy.pieces[i]? = some (callPiece entry back) ∧
      CallFor job copy.nesting target called entry back ∧
      (called ∈ state.calls ++ todo ∨ ∃ copy' ∈ copies, copy'.nesting = called)
  waiting : ∀ called ∈ state.calls ++ todo, Pending job body 0 state.supply called ∧
    ∃ enclosing, Enclosed copies called enclosing
  deep : ∀ called ∈ state.calls, called.outer.length = depth + 1
  level : ∀ called ∈ todo, called.outer.length = depth
  apart : (state.calls ++ todo).Pairwise Nesting.Apart
  unplaced : ∀ called ∈ state.calls ++ todo, ∀ label ∈ placedIn state.code,
    ¬ called.Stands label
  below : ∀ label ∈ placedIn state.code, label.index < state.supply
  nodup : (placedIn state.code).Nodup
  handled : ∀ handler ∈ state.handlers, ∃ copy ∈ copies, ∃ original ∈ job.outline.method.handlers,
    job.emitHandler copy.nesting original = .ok (some handler)
  handles : ∀ copy ∈ copies, ∀ original ∈ job.outline.method.handlers, ∃ found,
    job.emitHandler copy.nesting original = .ok found ∧ ∀ handler ∈ found, handler ∈ state.handlers
  localVariables : ∀ entry ∈ state.localVariables, ∃ copy ∈ copies,
    ∃ original ∈ job.outline.method.variableList,
      job.emitVariable copy.nesting original = .ok (some entry)
  returns : ∀ called ∈ state.calls ++ todo, ∀ back ∈ called.inner.returnLabel,
    back ∈ placedIn state.code
  returned : ∀ copy ∈ copies, ∀ back ∈ copy.nesting.inner.returnLabel, back ∈ placedIn state.code

variable {depth : Nat} {copies : List Copy} {inlined inlined' : Inlined} {todo : List Nesting}

theorem placedIn_append (code code' : List (Instruction Label)) :
    placedIn (code ++ code') = placedIn code ++ placedIn code' :=
  List.filterMap_append

/-- What is emitted for the members of a list, except where that is nothing. -/
theorem exists_of_mem_emitted {ε α β : Type} {f : α → Except ε (Option β)} {l : List α}
    {found : List (Option β)} (h : l.mapM f = .ok found) {b : β}
    (hb : b ∈ (found.filterMap id).reverse) : ∃ a ∈ l, f a = .ok (some b) := by
  obtain ⟨entry, hm, rfl⟩ := List.mem_filterMap.mp (List.mem_reverse.mp hb)
  exact exists_of_mem_mapM h hm

/-- Emitting an instance that waits adds its copy. -/
theorem Assembly.emit (hn : job.outline.method.body.placed.Nodup)
    (h : Assembly job body depth copies inlined (nesting :: todo))
    (he : job.emit inlined nesting = .ok inlined') : ∃ copy, copy.nesting = nesting ∧
      Assembly job body depth (copies ++ [copy]) inlined' todo := by
  obtain ⟨emission, hf, he⟩ := bind_eq_ok.mp he
  obtain ⟨handlers, hhandlers, he⟩ := bind_eq_ok.mp he
  obtain ⟨entries, hentries, he⟩ := bind_eq_ok.mp he
  obtain rfl := pure_eq_ok.mp he
  obtain ⟨hpending, enclosing, henclosed⟩ := h.waiting nesting (by simp)
  obtain ⟨pieces, hem⟩ := emitting_foldlM hn hpending (List.prefix_refl _) hf
  have hgrows := hem.grows
  let copy : Copy := ⟨nesting, enclosing, pieces⟩
  have hpre : copies <+: copies ++ [copy] := List.prefix_append _ _
  have hold : ∀ called ∈ inlined.calls ++ todo, called ∈ inlined.calls ++ nesting :: todo := by
    intro called hm
    rcases List.mem_append.mp hm with hm | hm
    · exact List.mem_append_left _ hm
    · exact List.mem_append_right _ (List.mem_cons_of_mem _ hm)
  obtain ⟨hcalls, hrest, hcross⟩ := List.pairwise_append.mp h.apart
  obtain ⟨hfirst, htodo⟩ := List.pairwise_cons.mp hrest
  have hapart : ∀ called ∈ inlined.calls ++ todo, ∀ label, called.Stands label →
      ¬ nesting.Stands label := by
    intro called hm label hs hs'
    rcases List.mem_append.mp hm with hm | hm
    · exact hcross called hm nesting List.mem_cons_self label hs hs'
    · exact hfirst called hm label hs' hs
  exact ⟨copy, rfl,
    { copied := by
        have hcode : emission.code.reverse = copy.code := by
          rw [hem.emitted, List.reverse_reverse]
          rfl
        rw [List.reverse_append, hcode]
        exact h.copied.append (hpending.members _ List.mem_cons_self) hem.made henclosed
      complete := by
        intro c hc
        rcases List.mem_append.mp hc with hc | hc
        · exact h.complete c hc
        · obtain rfl := List.mem_singleton.mp hc
          exact ⟨⟨_, hpending⟩, hem.places⟩
      calls := by
        intro c hc i target hat own
        rcases List.mem_append.mp hc with hc | hc
        · obtain ⟨called, entry, back, hpiece, hcall, hwhere⟩ := h.calls c hc hat own
          refine ⟨called, entry, back, hpiece, hcall, ?_⟩
          rcases hwhere with hm | ⟨copy', hm, hcopy⟩
          · rcases List.mem_append.mp hm with hm | hm
            · exact .inl (by simp [hm])
            · rcases List.mem_cons.mp hm with rfl | hm
              · exact .inr ⟨copy, by simp, rfl⟩
              · exact .inl (by simp [hm])
          · exact .inr ⟨copy', List.mem_append_left _ hm, hcopy⟩
        · obtain rfl := List.mem_singleton.mp hc
          obtain ⟨called, hm, entry, back, hpiece, hcall⟩ := hem.calls hat own
          exact ⟨called, entry, back, hpiece, hcall, .inl (by simp [hm])⟩
      waiting := by
        intro called hm
        rw [List.append_assoc] at hm
        rcases List.mem_append.mp hm with hm | hm
        · obtain ⟨hp, houter⟩ := hem.pending called hm
          exact ⟨hp.mono (Nat.zero_le _) (Nat.le_refl _), copies.length :: enclosing,
            .within (by simp : (copies ++ [copy])[copies.length]? = some copy) houter⟩
        · obtain ⟨hp, around, ha⟩ := h.waiting called (hold called hm)
          exact ⟨hp.mono (Nat.le_refl _) hgrows, around, ha.mono hpre⟩
      deep := by
        intro called hm
        rcases List.mem_append.mp hm with hm | hm
        · rw [(hem.pending called hm).2, List.length_cons, h.level nesting List.mem_cons_self]
        · exact h.deep called hm
      level := by
        exact fun called hm => h.level called (List.mem_cons_of_mem _ hm)
      apart := by
        rw [List.append_assoc]
        refine List.pairwise_append.mpr ⟨hem.apart, ?_, ?_⟩
        · refine List.pairwise_append.mpr ⟨hcalls, htodo, fun a ha b hb => ?_⟩
          exact hcross a ha b (List.mem_cons_of_mem _ hb)
        · intro called hm other ho label hs hs'
          have := ((hem.pending called hm).1.within hs).1
          have := ((h.waiting other (hold other ho)).1.within hs').2
          omega
      unplaced := by
        intro called hm label hl hs
        rw [List.append_assoc] at hm
        rw [placedIn_append] at hl
        rcases List.mem_append.mp hm with hm | hm <;> rcases List.mem_append.mp hl with hl | hl
        · exact hem.unplaced called hm label hl hs
        · have := ((hem.pending called hm).1.within hs).1
          have := h.below label hl
          omega
        · rcases hem.known label hl with ⟨hs', -⟩ | ⟨hge, -⟩
          · exact hapart called hm label hs hs'
          · have := ((h.waiting called (hold called hm)).1.within hs).2
            omega
        · exact h.unplaced called (hold called hm) label hl hs
      below := by
        intro label hl
        rw [placedIn_append] at hl
        rcases List.mem_append.mp hl with hl | hl
        · rcases hem.known label hl with ⟨hs, -⟩ | ⟨-, hlt⟩
          · exact Nat.lt_of_lt_of_le (hpending.within hs).2 hgrows
          · exact hlt
        · exact Nat.lt_of_lt_of_le (h.below label hl) hgrows
      nodup := by
        rw [placedIn_append]
        refine List.nodup_append.mpr ⟨hem.nodup, h.nodup, ?_⟩
        rintro label hl _ hl' rfl
        rcases hem.known label hl with ⟨hs, -⟩ | ⟨hge, -⟩
        · exact h.unplaced nesting (by simp) label hl' hs
        · have := h.below label hl'
          omega
      handled := by
        intro handler hm
        rcases List.mem_append.mp hm with hm | hm
        · obtain ⟨original, ho, hemit⟩ := exists_of_mem_emitted hhandlers hm
          exact ⟨copy, by simp, original, ho, hemit⟩
        · obtain ⟨c, hc, original, ho, hemit⟩ := h.handled handler hm
          exact ⟨c, List.mem_append_left _ hc, original, ho, hemit⟩
      handles := by
        intro c hc original ho
        rcases List.mem_append.mp hc with hc | hc
        · obtain ⟨found, hemit, hall⟩ := h.handles c hc original ho
          exact ⟨found, hemit, fun handler hm => List.mem_append_right _ (hall handler hm)⟩
        · obtain rfl := List.mem_singleton.mp hc
          obtain ⟨found, hfound, hemit⟩ := exists_mem_of_mapM hhandlers ho
          refine ⟨found, hemit, fun handler hm => List.mem_append_left _ (List.mem_reverse.mpr ?_)⟩
          exact List.mem_filterMap.mpr ⟨found, hfound, hm⟩
      localVariables := by
        intro entry hm
        rcases List.mem_append.mp hm with hm | hm
        · obtain ⟨original, ho, hemit⟩ := exists_of_mem_emitted hentries hm
          exact ⟨copy, by simp, original, ho, hemit⟩
        · obtain ⟨c, hc, original, ho, hemit⟩ := h.localVariables entry hm
          exact ⟨c, List.mem_append_left _ hc, original, ho, hemit⟩
      returns := by
        intro called hm back hb
        rw [List.append_assoc] at hm
        rw [placedIn_append]
        rcases List.mem_append.mp hm with hm | hm
        · exact List.mem_append_left _ (hem.returns called hm back hb)
        · exact List.mem_append_right _ (h.returns called (hold called hm) back hb)
      returned := by
        intro c hc back hb
        rw [placedIn_append]
        rcases List.mem_append.mp hc with hc | hc
        · exact List.mem_append_right _ (h.returned c hc back hb)
        · obtain rfl := List.mem_singleton.mp hc
          exact List.mem_append_right _ (h.returns nesting (by simp) back hb) }⟩

theorem Assembly.emitTodo (hn : job.outline.method.body.placed.Nodup)
    (h : Assembly job body depth copies inlined todo)
    (he : todo.foldlM job.emit inlined = .ok inlined') :
    ∃ copies', copies <+: copies' ∧ Assembly job body depth copies' inlined' [] := by
  induction todo generalizing copies inlined with
  | nil =>
    obtain rfl := pure_eq_ok.mp he
    exact ⟨copies, List.prefix_refl _, h⟩
  | cons nesting todo ih =>
    obtain ⟨next, hnext, he⟩ := bind_eq_ok.mp he
    obtain ⟨copy, -, hcopy⟩ := h.emit hn hnext
    obtain ⟨copies', hpre, hrest⟩ := ih hcopy he
    exact ⟨copies', (List.prefix_append _ _).trans hpre, hrest⟩

/-- Emitting what is called so far adds copies until nothing is left, unless it is too deep. -/
theorem Assembly.emitAll (hn : job.outline.method.body.placed.Nodup) {rounds : Nat}
    (h : Assembly job body depth copies inlined [])
    (he : job.emitAll rounds inlined = .ok inlined') :
    ∃ copies', copies <+: copies' ∧ Assembly job body (depth + rounds) copies' inlined' [] := by
  induction rounds generalizing depth copies inlined with
  | zero =>
    obtain rfl := Except.ok.inj he
    exact ⟨copies, List.prefix_refl _, h⟩
  | succ rounds ih =>
    obtain ⟨next, hnext, he⟩ := bind_eq_ok.mp he
    have hperm : ∀ called, called ∈ [] ++ inlined.calls.reverse ↔
        called ∈ inlined.calls ++ [] := by simp
    have hstart : Assembly job body (depth + 1) copies { inlined with calls := [] }
        inlined.calls.reverse := by
      refine ⟨h.copied, h.complete, ?_, ?_, nofun, ?_, ?_, ?_, h.below, h.nodup, h.handled,
        h.handles, h.localVariables, ?_, h.returned⟩
      · intro copy hc i target hat own
        obtain ⟨called, entry, back, hpiece, hcall, hwhere⟩ := h.calls copy hc hat own
        exact ⟨called, entry, back, hpiece, hcall, hwhere.imp_left (hperm called).mpr⟩
      · exact fun called hm => h.waiting called ((hperm called).mp hm)
      · exact fun called hm => h.deep called (List.mem_reverse.mp hm)
      · have hp := h.apart
        rw [List.append_nil] at hp
        rw [List.nil_append, List.pairwise_reverse]
        exact hp.imp fun ha clone hs hs' => ha clone hs' hs
      · exact fun called hm => h.unplaced called ((hperm called).mp hm)
      · exact fun called hm => h.returns called ((hperm called).mp hm)
    obtain ⟨copies', hpre, hround⟩ := hstart.emitTodo hn hnext
    obtain ⟨copies'', hpre', hrest⟩ := ih hround he
    rw [Nat.add_right_comm, Nat.add_assoc] at hrest
    exact ⟨copies'', hpre.trans hpre', hrest⟩

/-- Instances are not nested deeper than there are subroutines. -/
theorem Pending.length_outer_le (h : Pending job body lo hi nesting) :
    nesting.outer.length ≤ job.subroutines.length := by
  have hsub : (nesting.inner :: nesting.outer).map (·.subroutine.entry) ⊆
      (body :: job.subroutines).map Subroutine.entry := by
    intro entry hm
    obtain ⟨inst, hi, rfl⟩ := List.mem_map.mp hm
    exact List.mem_map_of_mem (h.members inst hi)
  have hle := (List.Nodup.subperm h.distinct hsub).length_le
  simpa using hle

/-- What is found out about a method before the first instance is emitted, and that instance. -/
def beginInlining (method : Method) : Except Inconsistency (Job × Nesting × Nat) := do
  method.checkPlacedOnce method.displayName
  let outline := Outline.ofMethod method
  let (body, subroutines) ← outline.subroutines
  let job : Job := ⟨outline, subroutines⟩
  let (start, supply) ← job.instantiate 0 body none
  return (job, start, supply)

/-- A method with the code of all its instances. -/
def finishInlining (method : Method) (inlined : Inlined) : Method :=
  { method with
    body := ⟨inlined.code.reverse, inlined.supply⟩
    handlers := inlined.handlers.reverse
    localVariables := method.localVariables.map fun _ => inlined.localVariables.reverse }

def Inlined.blank (supply : Nat) : Inlined :=
  ⟨supply, [], [], [], []⟩

theorem inlineSubroutines_eq {method : Method} (hc : method.callsSubroutines = true) :
    method.inlineSubroutines = (do
      let (job, start, supply) ← beginInlining method
      let inlined ← job.emitAll (job.subroutines.length + 1)
        { Inlined.blank supply with calls := [start] }
      return finishInlining method inlined) := by
  unfold Method.inlineSubroutines beginInlining
  simp only [hc, Bool.not_true, Bool.false_eq_true, if_false, bind_assoc]
  rfl

/-- The first instance is one of the body, which nothing calls. -/
theorem beginInlining_ok {method : Method} {start : Nesting}
    (h : beginInlining method = .ok (job, start, supply)) :
    ∃ body, (Outline.ofMethod method).subroutines = .ok (body, job.subroutines) ∧
      job.outline = .ofMethod method ∧ method.body.placed.Nodup ∧
      Pending job body 0 supply start ∧ start.inner.subroutine = body ∧
      start.inner.returnLabel = none ∧ start.outer = [] := by
  obtain ⟨_, honce, h⟩ := bind_eq_ok.mp h
  obtain ⟨⟨body, called⟩, hs, h⟩ := bind_eq_ok.mp h
  obtain ⟨⟨start, supply⟩, hi, h⟩ := bind_eq_ok.mp h
  cases h
  have hn : method.body.placed.Nodup := by
    unfold Method.checkPlacedOnce at honce
    split at honce
    · cases honce
    · rename_i hnone
      exact (Label.nodup_of_firstRepeated? hnone).1
  obtain ⟨hsub, hback, hout⟩ := instantiate_ok hi
  have hout : start.outer = [] := hout
  refine ⟨body, hs, rfl, hn, ⟨?_, by simp [hout], _, _, Nat.zero_le _, Nat.le_refl _,
    clones_instantiate hn hi⟩, hsub, hback, hout⟩
  simp [hout, hsub]

/-- Emitting the instances leaves none, and the first copy is that of the first of them. -/
theorem assembly_emitAll (hn : job.outline.method.body.placed.Nodup) {start : Nesting}
    (hp : Pending job body 0 supply start) (hout : start.outer = [])
    (hback : start.inner.returnLabel = none)
    (he : job.emitAll (job.subroutines.length + 1) { Inlined.blank supply with calls := [start] } =
      .ok inlined) :
    ∃ copies, Assembly job body job.subroutines.length copies inlined [] ∧
      inlined.calls = [] ∧ ∃ copy, copies[0]? = some copy ∧ copy.nesting = start := by
  have hstart : Assembly job body 0 [] (.blank supply) [start] := by
    refine ⟨⟨rfl, by simp, by simp, by simp⟩, by simp, by simp, ?_, nofun, ?_,
      List.pairwise_singleton _ _, by simp [Inlined.blank, placedIn],
      by simp [Inlined.blank, placedIn], List.nodup_nil, nofun, by simp, nofun, ?_, nofun⟩
    · intro nesting hm
      obtain rfl := List.mem_singleton.mp hm
      exact ⟨hp, [], .outermost hout⟩
    · intro nesting hm
      obtain rfl := List.mem_singleton.mp hm
      rw [hout]
      rfl
    · intro nesting hm back hb
      obtain rfl := List.mem_singleton.mp hm
      rw [hback] at hb
      cases hb
  obtain ⟨next, hnext, he⟩ := bind_eq_ok.mp he
  obtain ⟨next', hnext', hnil⟩ := bind_eq_ok.mp hnext
  obtain rfl := pure_eq_ok.mp hnil
  obtain ⟨copy, hcopy, hfirst⟩ := hstart.emit hn hnext'
  obtain ⟨copies, hpre, hall⟩ := hfirst.emitAll hn he
  rw [Nat.zero_add] at hall
  refine ⟨copies, hall, List.eq_nil_iff_forall_not_mem.mpr fun nesting hm => ?_, copy, ?_, hcopy⟩
  · have hdeep := hall.deep nesting hm
    have hle := (hall.waiting nesting (List.mem_append_left _ hm)).1.length_outer_le
    omega
  · obtain ⟨more, rfl⟩ := hpre
    rfl

/-- A method with its subroutines inlined: a copy of the body and one for every call of a copy, in
which each label is placed once, with their handlers. -/
structure Assembled (job : Job) (body : Subroutine) (copies : List Copy) (out : Method) :
    Prop where
  copied : Copied job body copies out.body.code
  complete : ∀ copy ∈ copies, Complete job body copy
  starts : ∃ copy, copies[0]? = some copy ∧ copy.nesting.inner.subroutine = body ∧
    copy.nesting.inner.returnLabel = none
  calls : ∀ copy ∈ copies, ∀ {i : Nat} {target : Label},
    job.outline.method.body.code[i]? = some (.jump .jsr target) → copy.nesting.owns i = true →
    ∃ copy' ∈ copies, ∃ entry back, copy.pieces[i]? = some (callPiece entry back) ∧
      CallFor job copy.nesting target copy'.nesting entry back
  nodup : out.body.placed.Nodup
  handled : ∀ handler ∈ out.handlers, ∃ copy ∈ copies, ∃ original ∈ job.outline.method.handlers,
    job.emitHandler copy.nesting original = .ok (some handler)
  handles : ∀ copy ∈ copies, ∀ original ∈ job.outline.method.handlers, ∃ found,
    job.emitHandler copy.nesting original = .ok found ∧ ∀ handler ∈ found, handler ∈ out.handlers
  localVariables : ∀ entry ∈ out.variableList, ∃ copy ∈ copies,
    ∃ original ∈ job.outline.method.variableList,
      job.emitVariable copy.nesting original = .ok (some entry)
  returned : ∀ copy ∈ copies, ∀ back ∈ copy.nesting.inner.returnLabel, back ∈ out.body.placed
  below : ∀ label ∈ out.body.placed, label.index < out.body.labels

/-- Inlining subroutines puts together a method. -/
theorem assembled_inlineSubroutines {method out : Method} (hc : method.callsSubroutines = true)
    (h : method.inlineSubroutines = .ok out) :
    ∃ body called copies, (Outline.ofMethod method).subroutines = .ok (body, called) ∧
      method.body.placed.Nodup ∧ Assembled ⟨.ofMethod method, called⟩ body copies out := by
  rw [inlineSubroutines_eq hc] at h
  obtain ⟨⟨⟨outline, called⟩, start, supply⟩, hbegin, h⟩ := bind_eq_ok.mp h
  obtain ⟨inlined, he, h⟩ := bind_eq_ok.mp h
  obtain rfl := pure_eq_ok.mp h
  obtain ⟨body, hs, rfl, hn, hp, hsub, hback, hout⟩ := beginInlining_ok hbegin
  obtain ⟨copies, hall, hdone, copy, hfirst, hcopy⟩ := assembly_emitAll hn hp hout hback he
  have hplaced : (finishInlining method inlined).body.placed = (placedIn inlined.code).reverse := by
    rw [placedIn, ← List.filterMap_reverse]
    rfl
  refine ⟨body, called, copies, hs, hn, hall.copied, hall.complete, ⟨copy, hfirst, ?_, ?_⟩, ?_, ?_,
    ?_, ?_, ?_, ?_, ?_⟩
  · rw [hcopy, hsub]
  · rw [hcopy, hback]
  · intro c hm i target hat own
    obtain ⟨called', entry, back, hpiece, hcall, hwhere⟩ := hall.calls c hm hat own
    rw [hdone] at hwhere
    obtain ⟨copy', hm', rfl⟩ := hwhere.resolve_left (by simp)
    exact ⟨copy', hm', entry, back, hpiece, hcall⟩
  · rw [hplaced]
    exact (List.reverse_perm _).nodup_iff.mpr hall.nodup
  · intro handler hm
    exact hall.handled handler (List.mem_reverse.mp hm)
  · intro c hm original ho
    obtain ⟨found, hemit, hin⟩ := hall.handles c hm original ho
    exact ⟨found, hemit, fun handler hf => List.mem_reverse.mpr (hin handler hf)⟩
  · intro entry hm
    refine hall.localVariables entry ?_
    cases hv : method.localVariables with
    | none => simp [finishInlining, Method.variableList, hv] at hm
    | some entries => simpa [finishInlining, Method.variableList, hv] using hm
  · intro c hm back hb
    rw [hplaced, List.mem_reverse]
    exact hall.returned c hm back hb
  · intro label hm
    rw [hplaced, List.mem_reverse] at hm
    exact hall.below label hm

end ClassTree.Subroutine
