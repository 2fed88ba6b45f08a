import Mathlib.Data.List.Induction
import ClassTree.Flow.Types
import ClassTree.Proofs.Hierarchy.Join

namespace ClassTree

/-- What classes have in common, two of them at a time. -/
def Hierarchy.commonOf (hierarchy : Hierarchy) (first : String) (rest : List String) : String :=
  rest.foldl hierarchy.commonSuperclass first

theorem Hierarchy.commonOf_concat {hierarchy : Hierarchy} (first : String) (rest : List String)
    (x : String) : hierarchy.commonOf first (rest ++ [x]) =
      hierarchy.commonSuperclass (hierarchy.commonOf first rest) x := by
  simp [commonOf]

namespace Ancestry

/-- The class is above all of some classes, and no other one that is above them is closer. -/
structure Closest (ancestry : Ancestry) (classes : List String) (c : String) : Prop where
  above : ∀ x ∈ classes, ancestry.Above x c
  least : ∀ z, (∀ x ∈ classes, ancestry.Above x z) → ancestry.Above c z

variable {ancestry : Ancestry} {classes classes' rest : List String} {c d x first : String}

theorem Closest.unique (hc : ancestry.ExtendsClasses) (h : ancestry.Closest classes c)
    (h' : ancestry.Closest classes d) : c = d :=
  (h.least d h'.above).antisymm hc (h'.least c h.above)

theorem Closest.of_mem_iff (h : ancestry.Closest classes c)
    (hm : ∀ x, x ∈ classes ↔ x ∈ classes') : ancestry.Closest classes' c where
  above x hx := h.above x ((hm x).mpr hx)
  least z hz := h.least z fun x hx => hz x ((hm x).mp hx)

theorem closest_singleton (x : String) : ancestry.Closest [x] x where
  above _ hy := .inl (List.mem_singleton.mp hy).symm
  least _ hz := hz x List.mem_cons_self

/-- One more class: what is closest to all is what it has in common with the one so far. -/
theorem Closest.concat (hc : ancestry.ExtendsClasses) (h : ancestry.Closest classes c)
    (x : String) : ancestry.Closest (classes ++ [x]) (ancestry.commonSuperclass c x) where
  above y hy := by
    rcases List.mem_append.mp hy with hy | hy
    · exact (h.above y hy).trans hc above_commonSuperclass_left
    · rw [List.mem_singleton.mp hy]
      exact above_commonSuperclass_right
  least z hz := by
    apply commonSuperclass_least hc
    · exact h.least z fun y hy => hz y (List.mem_append_left _ hy)
    · exact hz x (List.mem_append_right _ List.mem_cons_self)

theorem closest_commonOf (hc : ancestry.ExtendsClasses) (first : String) (rest : List String) :
    ancestry.Closest (first :: rest) (ancestry.hierarchy.commonOf first rest) := by
  induction rest using List.reverseRecOn with
  | nil => exact closest_singleton first
  | append_singleton rest x ih =>
    rw [Hierarchy.commonOf_concat]
    exact ih.concat hc x

/-- Only `java/lang/Object` is above the class of all exceptions. -/
theorem library_throwable {z : String} (h : library.Above Name.throwable z) :
    z = Name.throwable ∨ z = Name.object := by
  have hchain : library.resolved? Name.throwable = some [Name.throwable, Name.object] := by
    decide +kernel
  rcases h with h | h | ⟨chain, hr, hz⟩
  · exact .inl h
  · exact .inr h
  · obtain rfl := Option.some.inj (hchain.symm.trans hr)
    simpa using hz

end Ancestry

namespace Flow

def HandlerRange.caught (range : HandlerRange) : String :=
  range.catchType.getD Name.throwable

/-- The classes that are caught with the handler at an index, in the order of the ranges. -/
def caughtAt (handlers : List HandlerRange) (entry : Nat) : List String :=
  (handlers.filter (·.handler = entry)).map HandlerRange.caught

/-- The type of what is thrown, where several classes have one in common. -/
def thrownAs (common : String) : String :=
  if common = Name.object then Name.throwable else common

/-- The type that a handler starts with, for the classes that are caught with it. -/
def entryType? (hierarchy : Hierarchy) : List String → Option String
  | [] => none
  | [only] => some only
  | first :: rest => some (thrownAs (hierarchy.commonOf first rest))

variable {handlers handlers' : List HandlerRange} {range : HandlerRange} {entry : Nat}

theorem caughtAt_concat_self :
    caughtAt (handlers ++ [range]) range.handler =
      caughtAt handlers range.handler ++ [range.caught] := by
  simp [caughtAt]

theorem caughtAt_concat_of_ne (h : range.handler ≠ entry) :
    caughtAt (handlers ++ [range]) entry = caughtAt handlers entry := by
  simp [caughtAt, h]

theorem entryTypes_concat (hierarchy : Hierarchy) (handlers : List HandlerRange)
    (range : HandlerRange) : entryTypes hierarchy (handlers ++ [range]) =
      (entryTypes hierarchy handlers).insert range.handler
        (match (entryTypes hierarchy handlers)[range.handler]? with
        | none => range.caught
        | some existing => thrownAs (hierarchy.commonSuperclass existing range.caught)) := by
  rw [entryTypes, List.foldl_append]
  rfl

/-- Once `java/lang/Throwable` has taken the place of `java/lang/Object`, it stays: whatever it
merges with is an exception or not. -/
theorem thrownAs_throwable (x : String) :
    thrownAs (Hierarchy.library.commonSuperclass Name.throwable x) = Name.throwable := by
  rw [thrownAs, Hierarchy.library_commonSuperclass]
  rcases Ancestry.library_throwable (Ancestry.above_commonSuperclass_left (b := x)) with h | h
  · rw [h]
    decide
  · rw [h, if_pos rfl]

/-- Merging with what takes the place of a class comes to the same as merging with that class. -/
theorem thrownAs_merge (c x : String) :
    thrownAs (Hierarchy.library.commonSuperclass (thrownAs c) x) =
      thrownAs (Hierarchy.library.commonSuperclass c x) := by
  by_cases hc : c = Name.object
  · rw [hc, Hierarchy.library_commonSuperclass, Ancestry.object_commonSuperclass]
    exact thrownAs_throwable x
  · rw [thrownAs.eq_def c, if_neg hc]

/-- One more class is caught. -/
theorem entryType?_concat (classes : List String) (x : String) :
    entryType? .library (classes ++ [x]) = some (match entryType? .library classes with
      | none => x
      | some existing => thrownAs (Hierarchy.library.commonSuperclass existing x)) := by
  match classes with
  | [] => rfl
  | [only] => rfl
  | first :: second :: rest =>
    have hmerge := thrownAs_merge (Hierarchy.library.commonOf first (second :: rest)) x
    rw [← Hierarchy.commonOf_concat] at hmerge
    exact congrArg some hmerge.symm

/-- The table has what the classes that are caught come to. -/
theorem entryTypes_eq (handlers : List HandlerRange) (entry : Nat) :
    (entryTypes .library handlers)[entry]? = entryType? .library (caughtAt handlers entry) := by
  induction handlers using List.reverseRecOn with
  | nil => exact Std.HashMap.getElem?_empty
  | append_singleton handlers range ih =>
    rw [entryTypes_concat, Std.HashMap.getElem?_insert]
    by_cases he : range.handler = entry
    · subst he
      rw [if_pos (beq_self_eq_true _), caughtAt_concat_self, entryType?_concat, ih]
    · rw [if_neg (by simpa using he), caughtAt_concat_of_ne he, ih]

theorem caughtAt_perm (h : handlers.Perm handlers') (entry : Nat) :
    (caughtAt handlers entry).Perm (caughtAt handlers' entry) :=
  (h.filter _).map _

theorem entryType?_perm {classes classes' : List String} (h : classes.Perm classes') :
    entryType? .library classes = entryType? .library classes' := by
  match classes, classes' with
  | [], [] => rfl
  | [only], [other] => rw [List.singleton_perm_singleton.mp h]
  | [], _ :: _ | _ :: _, [] | [_], _ :: _ :: _ | _ :: _ :: _, [_] => simpa using h.length_eq
  | first :: second :: rest, first' :: second' :: rest' =>
    have hc : Ancestry.library.ExtendsClasses := Ancestry.library_extendsClasses
    have hclosest := Ancestry.closest_commonOf hc first (second :: rest)
    have hclosest' := Ancestry.closest_commonOf hc first' (second' :: rest')
    have heq := (hclosest.of_mem_iff fun _ => h.mem_iff).unique hc hclosest'
    exact congrArg (fun common => some (thrownAs common)) heq

/-- A handler starts with the closest class above all that is caught with it, which is also what
the classes have in common two at a time; only that two or more classes that have nothing but
`java/lang/Object` in common come out as `java/lang/Throwable`. The order of the ranges does not
matter. -/
theorem entryTypes_closest (handlers : List HandlerRange) :
    (∀ entry, caughtAt handlers entry = [] → (entryTypes .library handlers)[entry]? = none) ∧
    (∀ entry first rest, caughtAt handlers entry = first :: rest →
      ∃ common, common = Hierarchy.library.commonOf first rest ∧
        (∀ c, Ancestry.library.Closest (first :: rest) c ↔ c = common) ∧
        (entryTypes .library handlers)[entry]? =
          some (if rest ≠ [] ∧ common = Name.object then Name.throwable else common)) ∧
    ∀ handlers' : List HandlerRange, handlers.Perm handlers' → ∀ entry : Nat,
      (entryTypes .library handlers)[entry]? = (entryTypes .library handlers')[entry]? := by
  have hc : Ancestry.library.ExtendsClasses := Ancestry.library_extendsClasses
  refine ⟨fun entry h => ?_, fun entry first rest h => ?_, fun handlers' hp entry => ?_⟩
  · rw [entryTypes_eq, h]
    rfl
  · have hclosest := Ancestry.closest_commonOf hc first rest
    refine ⟨_, rfl, fun c => ⟨fun h' => h'.unique hc hclosest, fun h' => h' ▸ hclosest⟩, ?_⟩
    rw [entryTypes_eq, h]
    cases rest with
    | nil => rfl
    | cons second rest => simp [entryType?, thrownAs]
  · rw [entryTypes_eq, entryTypes_eq]
    exact entryType?_perm (caughtAt_perm hp entry)

end Flow
end ClassTree
