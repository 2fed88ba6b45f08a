import ClassTree.Proofs.Report.Calls

namespace ClassTree

namespace AccessFlags

variable {target : Flagged} {flags others : AccessFlags target}

theorem exists_twoPow (target : Flagged) :
    ∀ flag ∈ target.flagNames, ∃ i, flag.1.toBitVec = BitVec.twoPow 16 i := by
  have hsmall : ∀ flag ∈ target.flagNames, ∃ i < 16, flag.1.toBitVec = BitVec.twoPow 16 i := by
    cases target <;> decide
  exact fun flag hm => (hsmall flag hm).imp fun _ h => h.2

theorem nodup_flagNames (target : Flagged) : (target.flagNames.map Prod.snd).Nodup := by
  cases target <;> decide

/-- One flag is all that a flag can have in common with a set. -/
theorem and_flag {flag : UInt16 × String} (hm : flag ∈ target.flagNames) (bits : UInt16) :
    bits &&& flag.1 = 0 ∨ bits &&& flag.1 = flag.1 := by
  obtain ⟨i, hi⟩ := exists_twoPow target flag hm
  have hand : (bits &&& flag.1).toBitVec =
      if bits.toBitVec.getLsbD i = true then BitVec.twoPow 16 i else 0#16 := by
    rw [UInt16.toBitVec_and, hi, BitVec.and_twoPow]
  split at hand
  · exact .inr (UInt16.toBitVec_inj.mp (hand.trans hi.symm))
  · exact .inl (UInt16.toBitVec_inj.mp hand)

theorem and_foldl_or {a b m : UInt16} {l : List (UInt16 × String)}
    (h : ∀ flag ∈ l, a &&& flag.1 = b &&& flag.1) (hm : a &&& m = b &&& m) :
    a &&& l.foldl (fun bits flag => bits ||| flag.1) m =
      b &&& l.foldl (fun bits flag => bits ||| flag.1) m := by
  have hor : ∀ c m n : UInt16, c &&& (m ||| n) = (c &&& m) ||| (c &&& n) := by
    intro c m n
    simp only [← UInt16.toBitVec_inj, UInt16.toBitVec_and, UInt16.toBitVec_or,
      BitVec.and_or_distrib_left]
  induction l generalizing m with
  | nil => exact hm
  | cons flag l ih =>
    refine ih (fun flag hm => h flag (.tail _ hm)) ?_
    rw [hor, hor, hm, h flag List.mem_cons_self]

theorem mem_names {flag : UInt16 × String} (hm : flag ∈ target.flagNames) :
    flag.2 ∈ flags.names ↔ flags.has flag.1 = true := by
  rw [names, List.mem_map]
  constructor
  · rintro ⟨other, hother, he⟩
    obtain ⟨hlisted, hhas⟩ := List.mem_filter.mp hother
    rwa [List.inj_on_of_nodup_map (nodup_flagNames target) hlisted hm he] at hhas
  · exact fun hhas => ⟨flag, List.mem_filter.mpr ⟨hm, hhas⟩, rfl⟩

/-- Flags are told by their names. -/
theorem names_inj (h : flags = .ofBits target flags.bits) (h' : others = .ofBits target others.bits)
    (hn : flags.names = others.names) : flags = others := by
  have hand : ∀ flag ∈ target.flagNames, flags.bits &&& flag.1 = others.bits &&& flag.1 := by
    intro flag hm
    have hhas : flags.has flag.1 = true ↔ others.has flag.1 = true := by
      rw [← mem_names hm, ← mem_names hm, hn]
    simp only [has, beq_iff_eq] at hhas
    rcases and_flag hm flags.bits with hf | hf <;> rcases and_flag hm others.bits with ho | ho
    · rw [hf, ho]
    · exact (hhas.mpr ho).trans ho.symm
    · exact hf.trans (hhas.mp hf).symm
    · rw [hf, ho]
  rw [h, h', ofBits, ofBits]
  exact congrArg AccessFlags.mk (and_foldl_or hand (UInt16.and_zero.trans UInt16.and_zero.symm))

end AccessFlags

namespace Transcript

open Text

variable {target : Flagged} {access access' : AccessFlags target} {typeName : String}

/-- What stands for a set of flags, behind the name of the type of such sets. -/
def flagWords (access : AccessFlags target) : List String :=
  match access.names with
  | [] => ["empty()"]
  | names => names

theorem flags_eq (typeName : String) (access : AccessFlags target) :
    flags typeName access =
      " | ".intercalate ((flagWords access).map (typeName ++ "::" ++ ·)) := by
  unfold flags flagWords
  cases access.names with
  | nil =>
    rw [List.map_singleton, String.intercalate_singleton, String.append_assoc]
    rfl
  | cons name names => rfl

theorem isName_flagNames (target : Flagged) : ∀ flag ∈ target.flagNames, IsName flag.2 := by
  cases target <;> simp only [Flagged.flagNames]
  all_goals
    repeat first
      | exact List.forall_mem_nil _
      | refine List.forall_mem_cons.mpr ⟨isName_ofList _ rfl, ?_⟩

theorem isName_of_mem_names {name : String} (hm : name ∈ access.names) : IsName name := by
  obtain ⟨flag, hflag, rfl⟩ := List.mem_map.mp hm
  exact isName_flagNames target flag (List.mem_filter.mp hflag).1

theorem flagWords_cases (access : AccessFlags target) :
    access.names = [] ∧ flagWords access = ["empty()"] ∨
      access.names ≠ [] ∧ flagWords access = access.names := by
  unfold flagWords
  cases access.names with
  | nil => exact .inl ⟨rfl, rfl⟩
  | cons name names => exact .inr ⟨nofun, rfl⟩

/-- What stands for a set is not empty, and no name stands for the empty set. -/
theorem flagWords_inj (h : flagWords access = flagWords access') :
    access.names = access'.names := by
  have hempty : ∀ {other : AccessFlags target}, other.names ≠ ["empty()"] := by
    intro other he
    have hm : "empty()" ∈ other.names := by simp [he]
    cases (isName_of_mem_names hm).2 'e' (by simp)
  rcases flagWords_cases access with ⟨hn, hw⟩ | ⟨hn, hw⟩ <;>
    rcases flagWords_cases access' with ⟨hn', hw'⟩ | ⟨hn', hw'⟩
  · rw [hn, hn']
  · exact absurd (hw'.symm.trans (h.symm.trans hw)) hempty
  · exact absurd (hw.symm.trans (h.trans hw')) hempty
  · rw [← hw, h, hw']

theorem word_of_mem_flagWords {word : String} (hm : word ∈ flagWords access) :
    Word word ∧ ' ' ∉ word.toList := by
  rcases flagWords_cases access with ⟨-, hw⟩ | ⟨-, hw⟩ <;> rw [hw] at hm
  · obtain rfl := List.mem_singleton.mp hm
    have hempty : Word (call "empty" []) := word_call (simple_ofList _ rfl) nofun
    exact ⟨hempty, by simp⟩
  · have hname := isName_of_mem_names hm
    exact ⟨hname.simple.word hname.1, fun hspace => by cases hname.2 ' ' hspace⟩

theorem word_flags (hs : Simple typeName) (access : AccessFlags target) :
    Word (flags typeName access) := by
  have htype : Simple (typeName ++ "::") := hs.append (simple_ofList _ rfl)
  have hne : typeName ++ "::" ≠ "" := fun he =>
    absurd (String.append_eq_empty_iff.mp he).2 (by decide)
  have hwords : ∀ a ∈ (flagWords access).map (typeName ++ "::" ++ ·), Word a :=
    List.forall_mem_map.mpr fun word hm => (htype.word hne).append (word_of_mem_flagWords hm).1
  rw [flags_eq]
  cases h : flagWords access with
  | nil => rcases flagWords_cases access with ⟨-, hw⟩ | ⟨hn, hw⟩ <;> simp_all
  | cons first rest =>
    rw [h] at hwords
    exact word_intercalate (simple_ofList _ rfl) hwords

/-- Different sets of flags are written differently. -/
theorem flags_inj (hs : ' ' ∉ typeName.toList) (h : access = .ofBits target access.bits)
    (h' : access' = .ofBits target access'.bits)
    (he : flags typeName access = flags typeName access') : access = access' := by
  rw [flags_eq, flags_eq] at he
  have helement : ∀ (other : AccessFlags target),
      ∀ a ∈ (flagWords other).map (typeName ++ "::" ++ ·),
        a ≠ "" ∧ Returns (upTo ' ') () a.toList := by
    intro other
    refine List.forall_mem_map.mpr fun word hm => ⟨fun hnil => ?_, returns_upTo ?_⟩
    · exact absurd (String.append_eq_empty_iff.mp hnil).2 (word_of_mem_flagWords hm).1.ne_empty
    · simpa [hs] using (word_of_mem_flagWords hm).2
  have hwords := intercalate_inj (fun text => halts_upTo ' ' _) (by decide) (helement access)
    (helement access') he
  exact AccessFlags.names_inj h h' (flagWords_inj
    (map_inj_of_forall (fun _ _ _ _ => (String.append_right_inj _).mp) hwords))

end Transcript
end ClassTree
