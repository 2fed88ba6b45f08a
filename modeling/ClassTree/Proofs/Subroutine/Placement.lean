import ClassTree.Proofs.Subroutine.Assembly
import ClassTree.Proofs.Subroutine.Continuation
import ClassTree.Proofs.Subroutine.Traces
import Mathlib.Data.List.Nodup
import Mathlib.Data.List.Pairwise

namespace ClassTree

theorem Method.place?_of_nodup {method : Method} (hn : method.body.placed.Nodup) {label : Label}
    {i : Nat} (hi : method.body.code[i]? = some (.label label)) :
    method.place? label = some i := by
  refine Flow.Positions.getElem?_ofCode_of_once (List.count_eq_one_of_mem hn ?_) hi
  exact List.mem_filterMap.mpr ⟨_, List.mem_of_getElem? hi, rfl⟩

theorem Method.getElem?_of_place? {method : Method} {label : Label} {i : Nat}
    (h : method.place? label = some i) : method.body.code[i]? = some (.label label) :=
  (Flow.Positions.getElem?_ofCode.mp h).1

namespace Subroutine

/-- No element of the code belongs to both subroutines. -/
def Disjoint (subroutine other : Subroutine) : Prop :=
  ∀ i, ¬ (subroutine.claims i = true ∧ other.claims i = true)

variable {job : Job} {body : Subroutine} {copies : List Copy} {out : Method} {copy : Copy}
  {k i j p : Nat} {label clone : Label}

instance : Std.Symm Disjoint :=
  ⟨fun _ _ hd i hc => hd i hc.symm⟩

theorem start_mono (hk : copies[k]? = some copy) (hij : i ≤ j) :
    start copies k i ≤ start copies k j := by
  unfold start
  rw [hk]
  simp only [Option.map_some, Option.getD_some]
  obtain ⟨more, hmore⟩ := List.take_prefix_take_left (l := copy.pieces) hij
  rw [← hmore, List.flatten_append, List.length_append]
  omega

/-- A method whose subroutines have been inlined and are disjoint. -/
structure Separate (job : Job) (body : Subroutine) (copies : List Copy) (out : Method) : Prop
    extends Assembled job body copies out where
  outline : job.outline = .ofMethod job.outline.method
  subroutines : job.outline.subroutines = .ok (body, job.subroutines)
  once : job.outline.method.body.placed.Nodup
  disjoint : (body :: job.subroutines).Pairwise Disjoint

namespace Separate

variable (h : Separate job body copies out)
include h

/-- What an instance claims, no instance around it does. -/
theorem not_claimed (hk : copies[k]? = some copy)
    (hi : copy.nesting.inner.subroutine.claims i = true) :
    ∀ other ∈ copy.nesting.outer, other.subroutine.claims i = false := by
  intro other ho
  obtain ⟨hi', hp⟩ := (h.complete copy (List.mem_of_getElem? hk)).pending
  have hne : copy.nesting.inner.subroutine ≠ other.subroutine := by
    intro he
    have hd := hp.distinct
    rw [List.map_cons, List.nodup_cons] at hd
    exact hd.1 (List.mem_map.mpr ⟨other, ho, by rw [he]⟩)
  have hd := h.disjoint.forall (hp.members _ List.mem_cons_self)
    (hp.members other (List.mem_cons_of_mem _ ho)) hne
  rw [← Bool.not_eq_true]
  exact fun hc => hd i ⟨hi, hc⟩

theorem owns_of_claims (hk : copies[k]? = some copy)
    (hi : copy.nesting.inner.subroutine.claims i = true) : copy.nesting.owns i = true := by
  rw [Nesting.owns, hi, Bool.true_and, Bool.not_eq_true', List.any_eq_false]
  intro other ho
  rw [h.not_claimed hk hi other ho]
  exact Bool.false_ne_true

/-- A label that is jumped to belongs to the instance that the jump is in. -/
theorem stands_of_jumpLabel (hk : copies[k]? = some copy)
    (hj : job.jumpLabel copy.nesting label = .ok clone) : ∃ i,
      job.outline.method.place? label = some i ∧
      copy.nesting.inner.subroutine.claims i = true ∧
      copy.nesting.inner.labels[label]? = some clone := by
  obtain ⟨i, hi, hj⟩ := bind_eq_ok.mp hj
  have hplace : job.outline.method.place? label = some i := by
    rw [h.outline] at hi
    unfold Outline.position at hi
    split at hi
    · rename_i index hp
      exact Except.ok.inj hi ▸ hp
    · cases hi
  split at hj
  · rename_i found hf
    obtain rfl := pure_eq_ok.mp hj
    obtain ⟨owner, ho, hl⟩ := Option.bind_eq_some_iff.mp hf
    unfold Nesting.owner? at ho
    split at ho
    · rename_i hc
      refine ⟨i, hplace, hc, ?_⟩
      have hnone : copy.nesting.outer.reverse.find? (·.subroutine.claims i) = none := by
        refine List.find?_eq_none.mpr fun other hm => ?_
        rw [h.not_claimed hk hc other (List.mem_reverse.mp hm)]
        exact Bool.false_ne_true
      rw [List.reverse_cons, List.find?_append, hnone] at ho
      obtain rfl : copy.nesting.inner = owner := by simpa [hc] using ho
      exact hl
    · cases ho
  · cases hj

/-- What a copy emits for an index is where the copy has it. -/
theorem code_at (hk : copies[k]? = some copy) {piece : List (Instruction Label)}
    (hp : copy.pieces[i]? = some piece) {n : Nat} (hn : n < piece.length) :
    out.body.code[start copies k i + n]? = piece[n]? := by
  obtain ⟨before, hcode, hlen⟩ := h.copied.cut hk i
  obtain ⟨hlt, hget⟩ := List.getElem?_eq_some_iff.mp hp
  rw [hcode, ← hlen, List.getElem?_append_right (Nat.le_add_right _ _), Nat.add_sub_cancel_left,
    ← List.getElem_cons_drop hlt, hget, List.flatten_cons, List.append_assoc,
    List.getElem?_append_left hn]

/-- A label is at the first of those labels that it stands for, and from there up to any other of
them the copy emits nothing. -/
theorem place?_clone (hk : copies[k]? = some copy)
    (hi : job.outline.method.body.code[i]? = some (.label label))
    (hc : copy.nesting.inner.labels[label]? = some clone) : ∃ j, j ≤ i ∧
      out.place? clone = some (start copies k j) ∧
      (∃ first, job.outline.method.body.code[j]? = some (.label first)) ∧
      ∀ m insn, j ≤ m → m < i → job.outline.method.body.code[m]? = some insn →
        insn.isMarker = true ∨ copy.nesting.owns m = false := by
  have hcomplete := h.complete copy (List.mem_of_getElem? hk)
  obtain ⟨j, first, hj, hf, hl, hpiece⟩ := hcomplete.places hi hc
  obtain ⟨hi', hp⟩ := hcomplete.pending
  obtain ⟨_, _, -, -, hclones⟩ := hp.clones
  refine ⟨j, hj, ?_, ⟨first, hf⟩, ?_⟩
  · have hat := h.code_at hk hpiece (n := 0) (by simp)
    rw [Nat.add_zero] at hat
    exact Method.place?_of_nodup h.nodup hat
  · intro m insn hjm hmi hm
    cases hpl : insn.placed? with
    | some other =>
      cases insn with
      | label other => exact .inl rfl
      | _ => cases hpl
    | none => exact .inr (hclones.joined hf hi hl hc hjm hmi hm hpl)

/-- From a label on, control gets to what comes after that label in the method. -/
theorem nextReal_label (hk : copies[k]? = some copy)
    (hi : job.outline.method.body.code[i]? = some (.label label))
    (hc : copy.nesting.inner.labels[label]? = some clone)
    (hj : nextReal job.outline.method.body.code i = some j)
    (own : copy.nesting.owns j = true) : ∃ place, out.place? clone = some place ∧
      nextReal out.body.code place = some (start copies k j) := by
  obtain ⟨first, hfirst, hplace, -, hskipped⟩ := h.place?_clone hk hi hc
  obtain ⟨hij, ⟨insn, hat, hreal⟩, hmarkers⟩ := nextReal_spec hj
  refine ⟨_, hplace, nextReal_of_emitted h.copied hk (Nat.le_trans hfirst hij) hat hreal own ?_⟩
  intro m other hm hmj hget
  rcases Nat.lt_or_ge m i with hlt | hge
  · exact hskipped m other hm hlt hget
  · exact .inl (hmarkers m other hge hmj hget)

/-- A place is within what a copy emits for an index. -/
theorem place_le_iff (hk : copies[k]? = some copy)
    (hi : job.outline.method.body.code[i]? = some (.label label))
    (hc : copy.nesting.inner.labels[label]? = some clone) {insn : Instruction Label}
    (hat : job.outline.method.body.code[j]? = some insn) (hreal : insn.isMarker = false)
    (own : copy.nesting.owns j = true) (hlo : start copies k j ≤ p)
    (hhi : p < start copies k (j + 1)) : ∃ place, out.place? clone = some place ∧
      (place ≤ p ↔ i ≤ j) := by
  obtain ⟨first, hfirst, hplace, ⟨other, ho⟩, hskipped⟩ := h.place?_clone hk hi hc
  refine ⟨_, hplace, ?_, fun hij => ?_⟩
  · intro hle
    by_contra hji
    rcases Nat.lt_or_ge j first with hlt | hge
    · have := start_mono hk (show j + 1 ≤ first from hlt)
      omega
    · rcases hskipped j insn hge (Nat.lt_of_not_le hji) hat with hm | hn
      · rw [hreal] at hm
        cases hm
      · rw [own] at hn
        cases hn
  · exact Nat.le_trans (start_mono hk (Nat.le_trans hfirst hij)) hlo

/-- What the copy of a handler protects are the copies of what the handler protects. -/
theorem protects_iff (hk : copies[k]? = some copy) {original handler : TryCatch}
    (he : job.emitHandler copy.nesting original = .ok (some handler)) {insn : Instruction Label}
    (hat : job.outline.method.body.code[j]? = some insn) (hreal : insn.isMarker = false)
    (own : copy.nesting.owns j = true) (hlo : start copies k j ≤ p)
    (hhi : p < start copies k (j + 1)) :
    out.Protects handler p ↔ job.outline.method.Protects original j := by
  obtain ⟨first, hfirst, he⟩ := bind_eq_ok.mp he
  obtain ⟨last, hlast, he⟩ := bind_eq_ok.mp he
  split at he
  · cases he
  obtain ⟨entry, -, he⟩ := bind_eq_ok.mp he
  obtain rfl := Option.some.inj (pure_eq_ok.mp he)
  obtain ⟨_, hpending⟩ := (h.complete copy (List.mem_of_getElem? hk)).pending
  obtain ⟨_, _, -, -, hclones⟩ := hpending.clones
  have hf := stands_of_rangeLabel hfirst
  have hl := stands_of_rangeLabel hlast
  obtain ⟨a, ha⟩ := hclones.placed hf
  obtain ⟨b, hb⟩ := hclones.placed hl
  obtain ⟨place, hplace, hle⟩ := h.place_le_iff hk ha hf hat hreal own hlo hhi
  obtain ⟨place', hplace', hle'⟩ := h.place_le_iff hk hb hl hat hreal own hlo hhi
  have ha' := Method.place?_of_nodup h.once ha
  have hb' := Method.place?_of_nodup h.once hb
  constructor
  · rintro ⟨s, t, hs, ht, hsp, hpt⟩
    obtain rfl := Option.some.inj (hplace.symm.trans hs)
    obtain rfl := Option.some.inj (hplace'.symm.trans ht)
    exact ⟨a, b, ha', hb', hle.mp hsp, Nat.lt_of_not_le fun hc => absurd (hle'.mpr hc) (by omega)⟩
  · rintro ⟨s, t, hs, ht, hsj, hjt⟩
    obtain rfl := Option.some.inj (ha'.symm.trans hs)
    obtain rfl := Option.some.inj (hb'.symm.trans ht)
    exact ⟨place, place', hplace, hplace', hle.mpr hsj,
      Nat.lt_of_not_le fun hc => absurd (hle'.mp hc) (by omega)⟩

/-- The handlers of a copy protect nothing but that copy. -/
theorem eq_of_protects (hk : copies[k]? = some copy) {original handler : TryCatch} {k' : Nat}
    {copy' : Copy} (hk' : copies[k']? = some copy')
    (he : job.emitHandler copy'.nesting original = .ok (some handler))
    (hlo : start copies k j ≤ p) (hhi : p < start copies k (j + 1))
    (hp : out.Protects handler p) : k' = k := by
  obtain ⟨first, hfirst, he⟩ := bind_eq_ok.mp he
  obtain ⟨last, hlast, he⟩ := bind_eq_ok.mp he
  split at he
  · cases he
  obtain ⟨entry, -, he⟩ := bind_eq_ok.mp he
  obtain rfl := Option.some.inj (pure_eq_ok.mp he)
  obtain ⟨_, hpending⟩ := (h.complete copy' (List.mem_of_getElem? hk')).pending
  obtain ⟨_, _, -, -, hclones⟩ := hpending.clones
  obtain ⟨a, ha⟩ := hclones.placed (stands_of_rangeLabel hfirst)
  obtain ⟨b, hb⟩ := hclones.placed (stands_of_rangeLabel hlast)
  obtain ⟨a', -, hplace, -⟩ := h.place?_clone hk' ha (stands_of_rangeLabel hfirst)
  obtain ⟨b', -, hplace', -⟩ := h.place?_clone hk' hb (stands_of_rangeLabel hlast)
  obtain ⟨s, t, hs, ht, hsp, hpt⟩ := hp
  obtain rfl := Option.some.inj (hplace.symm.trans hs)
  obtain rfl := Option.some.inj (hplace'.symm.trans ht)
  rcases Nat.lt_trichotomy k' k with hlt | heq | hgt
  · have := start_mono_place hk hlt j b'
    omega
  · exact heq
  · have := start_mono_place hk' hgt a' (j + 1)
    omega

end Separate
end Subroutine
end ClassTree
