import ClassTree.Code.Widening
import ClassTree.Proofs.Code.Labels

namespace ClassTree.Code

open Pool

/-- A condition is replaced by its negation, which jumps over a wide jump. -/
theorem widened_across {op : Opcode} (ne_goto : op ≠ .goto) (ne_jsr : op ≠ .jsr) (target : Label)
    (rest : Body) : widened (.jump op target) rest =
      ⟨.jump op.negated ⟨rest.labels⟩ :: .jump .gotoWide target :: .label ⟨rest.labels⟩ ::
        rest.code, rest.labels + 1⟩ := by
  unfold widened
  split <;> simp_all [Body.freshLabel]

theorem foldr_widenIf_of_near {far : Instruction Label × Nat → Bool}
    {entries : List (Instruction Label × Nat)} (h : ∀ entry ∈ entries, far entry = false)
    (rest : Body) : entries.foldr (widenIf far) rest =
      { rest with code := entries.map Prod.fst ++ rest.code } := by
  induction entries with
  | nil => rfl
  | cons entry entries ih =>
    obtain ⟨hfirst, hentries⟩ := List.forall_mem_cons.mp h
    rw [List.foldr_cons, ih hentries, widenIf, hfirst]
    rfl

/-- If a single element is far, nothing else changes. -/
theorem widenFar_of_single {far : Instruction Label × Nat → Bool}
    {before : List (Instruction Label)} {insn : Instruction Label} {after : Body}
    (hbefore : ∀ entry ∈ before.zipIdx, far entry = false)
    (hfar : far (insn, before.length) = true)
    (hafter : ∀ entry ∈ after.code.zipIdx (before.length + 1), far entry = false) :
    widenFar far ⟨before ++ insn :: after.code, after.labels⟩ =
      ⟨before ++ (widened insn after).code, (widened insn after).labels⟩ := by
  rw [widenFar, List.zipIdx_append, List.foldr_append, Nat.zero_add, List.zipIdx_cons,
    List.foldr_cons, foldr_widenIf_of_near hafter, foldr_widenIf_of_near hbefore, widenIf, hfar,
    List.zipIdx_map_fst, List.zipIdx_map_fst, List.append_nil]
  rfl

/-- An element of the code while jumps are widened, and whether it is one of those there were
before. -/
structure Site where
  insn : Instruction Label
  original : Bool

/-- What an element of the code becomes. A condition is replaced by its negation, which goes to a
label of its own behind the wide jump. -/
inductive Widens : Instruction Label → List Site → Prop
  | stays (insn : Instruction Label) : Widens insn [⟨insn, true⟩]
  | goto (target : Label) : Widens (.jump .goto target) [⟨.jump .gotoWide target, false⟩]
  | jsr (target : Label) : Widens (.jump .jsr target) [⟨.jump .jsrWide target, false⟩]
  | across {op : Opcode} (target skip : Label) (narrow : op.isWideJump = false)
    (ne_goto : op ≠ .goto)
      (ne_jsr : op ≠ .jsr) : Widens (.jump op target)
        [⟨.jump op.negated skip, false⟩, ⟨.jump .gotoWide target, false⟩, ⟨.label skip, false⟩]

namespace Site

def placed (sites : List Site) : List Label :=
  sites.filterMap fun site => site.insn.placed?

@[simp] theorem placed_nil : placed [] = [] := rfl

theorem placed_append (sites more : List Site) :
    placed (sites ++ more) = placed sites ++ placed more :=
  List.filterMap_append

theorem placed_cons (site : Site) (sites : List Site) :
    placed (site :: sites) = placed [site] ++ placed sites :=
  placed_append [site] sites

/-- A round, which takes elements that there were before for jumps. Labels are handed out on the
way, from the last element on. -/
inductive Round : List Site → Nat → List Site → Nat → Prop
  | done {labels : Nat} : Round [] labels [] labels
  | stays {sites sites' : List Site} {labels labels' : Nat} (site : Site)
      (rest : Round sites labels sites' labels') :
        Round (site :: sites) labels (site :: sites') labels'
  | goto {sites sites' : List Site} {labels labels' : Nat} (target : Label)
      (rest : Round sites labels sites' labels') :
      Round (⟨.jump .goto target, true⟩ :: sites) labels
        (⟨.jump .gotoWide target, false⟩ :: sites') labels'
  | jsr {sites sites' : List Site} {labels labels' : Nat} (target : Label)
      (rest : Round sites labels sites' labels') :
      Round (⟨.jump .jsr target, true⟩ :: sites) labels
        (⟨.jump .jsrWide target, false⟩ :: sites') labels'
  | across {sites sites' : List Site} {labels labels' : Nat} {op : Opcode} (target : Label)
      (narrow : op.isWideJump = false) (ne_goto : op ≠ .goto) (ne_jsr : op ≠ .jsr)
      (rest : Round sites labels sites' labels') :
      Round (⟨.jump op target, true⟩ :: sites) labels
        (⟨.jump op.negated ⟨labels'⟩, false⟩ :: ⟨.jump .gotoWide target, false⟩ ::
          ⟨.label ⟨labels'⟩, false⟩ :: sites') (labels' + 1)

variable {sites sites' : List Site} {labels labels' : Nat} {label : Label}

theorem Round.le (h : Round sites labels sites' labels') : labels ≤ labels' := by
  induction h with
  | done => exact Nat.le_refl _
  | across _ _ _ _ _ ih => exact Nat.le_succ_of_le ih
  | _ => assumption

/-- Labels from before are placed as often as before. -/
theorem Round.count_old (h : Round sites labels sites' labels') (hl : label.index < labels) :
    (placed sites').count label = (placed sites).count label := by
  induction h with
  | done => rfl
  | @stays sites sites' _ _ site rest ih =>
    rw [placed_cons site sites', placed_cons site sites, List.count_append, List.count_append,
      ih hl]
  | goto _ _ ih | jsr _ _ ih => exact ih hl
  | @across _ _ labels labels' _ _ _ _ _ rest ih =>
    have hne : (⟨labels'⟩ : Label) ≠ label := by
      rintro rfl
      exact Nat.not_le_of_lt hl rest.le
    exact (List.count_cons_of_ne hne).trans (ih hl)

/-- Labels that have been handed out on the way are placed once, and no others are. -/
theorem Round.count_new (h : Round sites labels sites' labels')
    (hbelow : ∀ label ∈ placed sites, label.index < labels) (hl : labels ≤ label.index) :
    (placed sites').count label ≤ if label.index < labels' then 1 else 0 := by
  induction h with
  | done => exact Nat.zero_le _
  | @stays sites sites' _ _ site rest ih =>
    rw [placed_cons site sites] at hbelow
    rw [placed_cons site sites']
    have hold : (placed [site]).count label = 0 := by
      refine List.count_eq_zero.mpr fun hm => ?_
      exact Nat.not_le_of_lt (hbelow _ (List.mem_append_left _ hm)) hl
    rw [List.count_append, hold, Nat.zero_add]
    exact ih (fun label hm => hbelow label (List.mem_append_right _ hm)) hl
  | goto _ _ ih | jsr _ _ ih => exact ih hbelow hl
  | @across _ _ _ labels' _ _ _ _ _ rest ih =>
    have hrest := ih hbelow hl
    change (⟨labels'⟩ :: placed _).count label ≤ _
    by_cases he : (⟨labels'⟩ : Label) = label
    · subst he
      rw [if_neg (Nat.lt_irrefl _)] at hrest
      rw [List.count_cons_self, if_pos (Nat.lt_succ_self _)]
      omega
    · rw [List.count_cons_of_ne he]
      split at hrest <;> split <;> omega

theorem Round.handedOut (h : Round sites labels sites' labels')
    (hbelow : ∀ label ∈ placed sites, label.index < labels) :
    ∀ label ∈ placed sites', label.index < labels' := by
  intro label hm
  by_cases hl : labels ≤ label.index
  · have hcount := h.count_new hbelow hl
    have hpos := List.count_pos_iff.mpr hm
    by_contra hnot
    rw [if_neg hnot] at hcount
    omega
  · exact Nat.lt_of_lt_of_le (Nat.lt_of_not_le hl) h.le

/-- A label that is skipped to was there before, or has been handed out on the way. -/
theorem Round.skip_mem (h : Round sites labels sites' labels')
    (hm : ⟨.label label, false⟩ ∈ sites') :
    ⟨.label label, false⟩ ∈ sites ∨ labels ≤ label.index ∧ label.index < labels' := by
  induction h with
  | done => cases hm
  | stays site rest ih =>
    rcases List.mem_cons.mp hm with rfl | hm
    · exact .inl List.mem_cons_self
    · exact (ih hm).imp_left (List.mem_cons_of_mem _)
  | goto _ _ ih | jsr _ _ ih =>
    rcases List.mem_cons.mp hm with he | hm
    · cases he
    · exact (ih hm).imp_left (List.mem_cons_of_mem _)
  | @across _ _ _ labels' _ _ _ _ _ rest ih =>
    simp only [List.mem_cons, Site.mk.injEq, reduceCtorEq, false_and, false_or,
      Instruction.label.injEq, and_true] at hm ⊢
    rcases hm with rfl | hm
    · exact .inr ⟨rest.le, Nat.lt_succ_self _⟩
    · exact (ih hm).imp_right fun h => ⟨h.1, Nat.lt_succ_of_lt h.2⟩

/-- Labels that are skipped to are placed once. -/
theorem Round.once (h : Round sites labels sites' labels')
    (hbelow : ∀ label ∈ placed sites, label.index < labels)
    (honce : ∀ skip, ⟨.label skip, false⟩ ∈ sites → (placed sites).count skip = 1)
    {skip : Label} (hm : ⟨.label skip, false⟩ ∈ sites') : (placed sites').count skip = 1 := by
  rcases h.skip_mem hm with hold | ⟨hl, hlt⟩
  · have hplaced : skip ∈ placed sites := List.mem_filterMap.mpr ⟨_, hold, rfl⟩
    rw [h.count_old (hbelow skip hplaced), honce skip hold]
  · have hcount := h.count_new hbelow hl
    rw [if_pos hlt] at hcount
    have hplaced : skip ∈ placed sites' := List.mem_filterMap.mpr ⟨_, hm, rfl⟩
    exact Nat.le_antisymm hcount (List.count_pos_iff.mpr hplaced)

/-- What has been widened before stays. -/
theorem Round.after {part : List Site} (hpart : ∀ site ∈ part, site.original = false)
    (h : Round (part ++ sites) labels sites' labels') :
    ∃ rest, sites' = part ++ rest ∧ Round sites labels rest labels' := by
  induction part generalizing sites' with
  | nil => exact ⟨sites', rfl, h⟩
  | cons site part ih =>
    have hsite := hpart site List.mem_cons_self
    rw [List.cons_append] at h
    cases h with
    | stays _ rest =>
      obtain ⟨sites', rfl, hrest⟩ := ih (fun site hm => hpart site (List.mem_cons_of_mem _ hm)) rest
      exact ⟨sites', rfl, hrest⟩
    | goto | jsr | across => cases hsite

theorem Round.parts {code : List (Instruction Label)} {parts : List (List Site)}
    (hw : List.Forall₂ Widens code parts) (h : Round parts.flatten labels sites' labels') :
    ∃ parts', List.Forall₂ Widens code parts' ∧ sites' = parts'.flatten := by
  induction hw generalizing labels' sites' with
  | nil =>
    cases h
    exact ⟨[], .nil, rfl⟩
  | @cons insn part code parts hw _ ih =>
    rw [List.flatten_cons] at h
    have hbefore : (∀ site ∈ part, site.original = false) → ∃ parts',
        List.Forall₂ Widens (insn :: code) parts' ∧ sites' = parts'.flatten := by
      intro hpart
      obtain ⟨rest, rfl, hrest⟩ := h.after hpart
      obtain ⟨parts', hw', rfl⟩ := ih hrest
      exact ⟨part :: parts', .cons hw hw', rfl⟩
    cases hw with
    | stays =>
      cases h with
      | stays _ rest =>
        obtain ⟨parts', hw', rfl⟩ := ih rest
        exact ⟨_, .cons (.stays insn) hw', rfl⟩
      | goto target rest =>
        obtain ⟨parts', hw', rfl⟩ := ih rest
        exact ⟨_, .cons (.goto target) hw', rfl⟩
      | jsr target rest =>
        obtain ⟨parts', hw', rfl⟩ := ih rest
        exact ⟨_, .cons (.jsr target) hw', rfl⟩
      | across target narrow ne_goto ne_jsr rest =>
        obtain ⟨parts', hw', rfl⟩ := ih rest
        exact ⟨_, .cons (.across target _ narrow ne_goto ne_jsr) hw', rfl⟩
    | goto | jsr | across => exact hbefore (by simp)

/-- Only original elements are widened, so that fewer of them are left. -/
theorem Round.eq_or_countP_lt (h : Round sites labels sites' labels') :
    sites' = sites ∨ sites'.countP Site.original < sites.countP Site.original := by
  induction h with
  | done => exact .inl rfl
  | stays site _ ih =>
    rcases ih with rfl | hlt
    · exact .inl rfl
    · rw [List.countP_cons, List.countP_cons]
      exact .inr (Nat.add_lt_add_right hlt _)
  | goto _ _ ih | jsr _ _ ih | across _ _ _ _ _ ih =>
    refine .inr ?_
    simp only [List.countP_cons]
    rcases ih with rfl | hlt
    · simp
    · simp
      omega

def bodyOf (sites : List Site) (labels : Nat) : Body :=
  ⟨sites.map Site.insn, labels⟩

theorem Round.exists_widened {op : Opcode} (target : Label) (narrow : op.isWideJump = false)
    (rest : Round sites labels sites' labels') :
    ∃ more labels'', Round (⟨.jump op target, true⟩ :: sites) labels more labels'' ∧
      widened (.jump op target) (bodyOf sites' labels') = bodyOf more labels'' := by
  by_cases hg : op = .goto
  · subst hg
    exact ⟨_, _, rest.goto target, rfl⟩
  by_cases hj : op = .jsr
  · subst hj
    exact ⟨_, _, rest.jsr target, rfl⟩
  exact ⟨_, _, rest.across target narrow hg hj, widened_across hg hj target _⟩

/-- If all that is far was there before, widening it is a round. -/
theorem exists_round {far : Instruction Label × Nat → Bool} (hn : Narrow far) (sites : List Site)
    (labels : Nat)
    (h : ∀ entry ∈ sites.zipIdx, far (entry.1.insn, entry.2) = true → entry.1.original = true) :
    ∃ sites' labels', Round sites labels sites' labels' ∧
      widenFar far (bodyOf sites labels) = bodyOf sites' labels' := by
  unfold widenFar bodyOf
  dsimp only
  generalize 0 = start at h ⊢
  induction sites generalizing start with
  | nil => exact ⟨[], labels, .done, rfl⟩
  | cons site sites ih =>
    rw [List.zipIdx_cons] at h
    obtain ⟨sites', labels', rest, he⟩ := ih (start + 1) fun entry hm =>
      h entry (List.mem_cons_of_mem _ hm)
    rw [List.map_cons, List.zipIdx_cons, List.foldr_cons, he]
    unfold widenIf
    split
    · rename_i hfar
      obtain ⟨insn, original⟩ := site
      obtain ⟨op, target, hinsn, narrow⟩ := hn _ hfar
      obtain rfl : insn = _ := hinsn
      obtain rfl : original = true := h _ List.mem_cons_self hfar
      exact rest.exists_widened target narrow
    · exact ⟨_, _, .stays site rest, rfl⟩

end Site

theorem labels_widenIf {far : Instruction Label × Nat → Bool} (hn : Narrow far)
    {entry : Instruction Label × Nat} (h : far entry = true → isConditional entry.1 = false)
    (rest : Body) : (widenIf far entry rest).labels = rest.labels := by
  unfold widenIf
  split
  · rename_i hfar
    have hplain := h hfar
    obtain ⟨insn, index⟩ := entry
    obtain ⟨op, target, rfl, -⟩ := hn _ hfar
    obtain rfl | rfl : op = .goto ∨ op = .jsr := by
      by_contra hno
      simp_all [isConditional]
    · rfl
    · rfl
  · rfl

/-- Labels are handed out for conditions only. -/
theorem labels_widenFar {far : Instruction Label × Nat → Bool} {body : Body} (hn : Narrow far)
    (h : body.code.zipIdx.any (fun entry => far entry && isConditional entry.1) = false) :
    (widenFar far body).labels = body.labels := by
  have hplain : ∀ entry ∈ body.code.zipIdx, far entry = true → isConditional entry.1 = false := by
    intro entry hm hfar
    simpa [hfar] using List.any_eq_false.mp h entry hm
  unfold widenFar
  generalize body.code.zipIdx = entries at hplain ⊢
  induction entries with
  | nil => rfl
  | cons entry entries ih =>
    rw [List.foldr_cons, labels_widenIf hn (hplain entry List.mem_cons_self)]
    exact ih fun entry hm => hplain entry (List.mem_cons_of_mem _ hm)

/-- The negation of a condition goes over a single wide jump. -/
theorem over_of_narrow {code : List (Instruction Label)} {parts : List (List Site)}
    (h : List.Forall₂ Widens code parts) {index : Nat} {op : Opcode} {skip : Label}
    (hs : parts.flatten[index]? = some ⟨.jump op skip, false⟩) (hop : op.isWideJump = false) :
    (∃ target, parts.flatten[index + 1]? = some ⟨.jump .gotoWide target, false⟩) ∧
      parts.flatten[index + 2]? = some ⟨.label skip, false⟩ := by
  induction h generalizing index with
  | nil => simp at hs
  | @cons insn part code parts hw _ ih =>
    rw [List.flatten_cons] at hs ⊢
    by_cases hi : index < part.length
    · rw [List.getElem?_append_left hi] at hs
      cases hw with
      | stays => cases index <;> simp at hs
      | goto target =>
        cases index with
        | zero =>
          obtain ⟨rfl, -⟩ : Opcode.gotoWide = op ∧ target = skip := by simpa using hs
          cases hop
        | succ index => simp at hs
      | jsr target =>
        cases index with
        | zero =>
          obtain ⟨rfl, -⟩ : Opcode.jsrWide = op ∧ target = skip := by simpa using hs
          cases hop
        | succ index => simp at hs
      | across target past narrow ne_goto ne_jsr =>
        match index with
        | 0 =>
          obtain ⟨-, rfl⟩ : Opcode.negated _ = op ∧ past = skip := by simpa using hs
          exact ⟨⟨target, rfl⟩, rfl⟩
        | 1 =>
          obtain ⟨rfl, -⟩ : Opcode.gotoWide = op ∧ target = skip := by simpa using hs
          cases hop
        | 2 => simp at hs
        | index + 3 => simp at hs
    · have hge : part.length ≤ index := Nat.le_of_not_lt hi
      rw [List.getElem?_append_right hge] at hs
      rw [List.getElem?_append_right (by omega), List.getElem?_append_right (by omega),
        show index + 1 - part.length = index - part.length + 1 by omega,
        show index + 2 - part.length = index - part.length + 2 by omega]
      exact ih hs
theorem mem_parts {code : List (Instruction Label)} {parts : List (List Site)}
    (h : List.Forall₂ Widens code parts) {site : Site} (hm : site ∈ parts.flatten) :
    ∃ insn ∈ code, ∃ part ∈ parts, Widens insn part ∧ site ∈ part := by
  induction h with
  | nil => cases hm
  | @cons insn part code parts hw _ ih =>
    rw [List.flatten_cons] at hm
    rcases List.mem_append.mp hm with hm | hm
    · exact ⟨insn, by simp, part, by simp, hw, hm⟩
    · obtain ⟨insn', hi, part', hp, hw', hs⟩ := ih hm
      exact ⟨insn', by simp [hi], part', by simp [hp], hw', hs⟩

end ClassTree.Code
