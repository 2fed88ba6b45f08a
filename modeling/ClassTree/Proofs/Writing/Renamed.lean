import ClassTree.Proofs.Code.RenamedAttribute
import ClassTree.Proofs.Reading.RoundTrip
import Mathlib.Data.Set.Function

namespace ClassTree

open Pool Build

/-- The second method is the first one with its labels renamed, different ones differently. The
labels of both have been handed out. -/
structure Method.Renamed (method method' : Method) : Prop where
  before : method.HandedOut
  after : method'.HandedOut
  renamed : ∃ f, Set.InjOn f {label | label ∈ method.mentions} ∧
    method' = method.mapLabels f method'.body.labels

/-- Undoes a renaming of the labels that are mentioned. Labels that are not renamings of these are
moved behind them. -/
def Label.undo (f : Label → Label) (mentioned : List Label) (count : Nat) (label : Label) : Label :=
  (mentioned.find? fun old => f old = label).getD ⟨count + label.index⟩

section

variable {f : Label → Label} {mentioned : List Label} {count labels : Nat} {label : Label}

theorem Label.undo_cases (f : Label → Label) (mentioned : List Label) (count : Nat)
    (label : Label) :
    (undo f mentioned count label ∈ mentioned ∧ f (undo f mentioned count label) = label) ∨
      (∀ old ∈ mentioned, f old ≠ label) ∧
        undo f mentioned count label = ⟨count + label.index⟩ := by
  unfold undo
  cases hf : mentioned.find? fun old => f old = label with
  | none => exact .inr ⟨by simpa using hf, rfl⟩
  | some old => exact .inl ⟨List.mem_of_find?_eq_some hf, by simpa using List.find?_some hf⟩

theorem Label.undo_of_mem (hf : Set.InjOn f {label | label ∈ mentioned}) (hm : label ∈ mentioned) :
    undo f mentioned count (f label) = label := by
  rcases undo_cases f mentioned count (f label) with ⟨hold, he⟩ | ⟨hnone, -⟩
  · exact hf hold hm he
  · exact absurd rfl (hnone label hm)

/-- Labels that the renaming does not use go where nothing is. -/
theorem renaming_undo (hbefore : ∀ label ∈ mentioned, label.index < count)
    (hafter : ∀ label ∈ mentioned, (f label).index < labels) :
    Renaming (Label.undo f mentioned count) labels (count + labels) where
  injective := by
    intro a b hab
    rcases Label.undo_cases f mentioned count a with ⟨ha, hfa⟩ | ⟨-, ha⟩ <;>
      rcases Label.undo_cases f mentioned count b with ⟨hb, hfb⟩ | ⟨-, hb⟩
    · rw [← hfa, hab, hfb]
    · have := hbefore _ ha
      rw [hab, hb] at this
      exact absurd this (Nat.not_lt.mpr (Nat.le_add_right _ _))
    · have := hbefore _ hb
      rw [← hab, ha] at this
      exact absurd this (Nat.not_lt.mpr (Nat.le_add_right _ _))
    · rw [ha, hb] at hab
      exact congrArg Label.mk (Nat.add_left_cancel (Label.mk.inj hab))
  fresh := by
    intro k
    rcases Label.undo_cases f mentioned count ⟨labels + k⟩ with ⟨hm, he⟩ | ⟨-, he⟩
    · have := hafter _ hm
      rw [he] at this
      exact absurd this (Nat.not_lt.mpr (Nat.le_add_right _ _))
    · rw [he, Nat.add_assoc]

end

namespace Method

variable {method method' : Method} {g : Label → Label} {labels : Nat}

theorem alike_codeAttribute (h : Renaming g method.body.labels labels) (setting : Code.Setting) :
    Build.Alike Eq (method.codeAttribute setting)
      ((method.mapLabels g labels).codeAttribute setting) := by
  unfold codeAttribute
  rw [code_mapLabels, List.isEmpty_map, show (method.mapLabels g labels).hasCode = method.hasCode
    from rfl]
  split
  · refine (Code.alike_attributeInfo h setting).bind_eq fun info => ?_
    exact .refl _
  · exact .refl _

theorem alike_encode (h : Renaming g method.body.labels labels) (setting : Code.Setting) :
    Build.Alike Eq (method.encode setting) ((method.mapLabels g labels).encode setting) := by
  unfold encode
  refine (Build.Alike.refl (Build.text method.name)).bind_eq fun name => ?_
  refine (Build.Alike.refl (Build.text method.descriptor)).bind_eq fun descriptor => ?_
  refine (alike_codeAttribute h setting).bind_eq fun code => ?_
  exact .refl _

/-- A method is encoded as it is when it has more labels, and so is a renaming of it. -/
theorem alike_encode_undo {f : Label → Label} {count : Nat}
    (hf : Set.InjOn f {label | label ∈ method.mentions})
    (hbefore : ∀ label ∈ method.mentions, label.index < count)
    (hafter : (method.mapLabels f labels).HandedOut) (setting : Code.Setting) :
    Build.Alike Eq ((method.mapLabels f labels).encode setting)
      ((method.mapLabels id (count + labels)).encode setting) := by
  have hundo : Renaming (Label.undo f method.mentions count) labels (count + labels) :=
    renaming_undo hbefore fun label hm =>
      hafter (f label) ((mem_mentions_mapLabels labels).mpr ⟨label, hm, rfl⟩)
  have hback : (method.mapLabels f labels).mapLabels (Label.undo f method.mentions count)
      (count + labels) = method.mapLabels id (count + labels) := by
    rw [mapLabels_mapLabels]
    exact mapLabels_congr (fun label hm => Label.undo_of_mem hf hm) _
  rw [← hback]
  exact alike_encode hundo setting

theorem Renamed.alike_encode (h : method.Renamed method') (setting : Code.Setting) :
    Build.Alike Eq (method.encode setting) (method'.encode setting) := by
  -- the numbers of labels differ, so neither renaming turns the labels that come next on one side
  -- into those on the other; both methods are compared with a third that has more than either
  obtain ⟨hbefore, hafter, f, hf, he⟩ := h
  have hlater : ∀ more, ∀ label ∈ method.mentions, label.index < method.body.labels + more :=
    fun more label hm => Nat.lt_add_right more (hbefore label hm)
  rw [he] at hafter ⊢
  have hfirst := alike_encode_undo (Set.injOn_id _) (hlater method'.body.labels)
    ((mapLabels_id method).symm ▸ hbefore) setting
  have hsecond := alike_encode_undo hf (hlater method.body.labels) hafter setting
  rw [mapLabels_id, Nat.add_right_comm] at hfirst
  exact hfirst.trans hsecond.symm

theorem HandedOut.renamed_relabelled (h : method.HandedOut) : method.Renamed method.relabelled where
  before := h
  after := by
    intro label hm
    obtain ⟨old, hold, rfl⟩ := (mem_mentions_mapLabels _).mp hm
    exact Numbering.getD_ofList_lt hold
  renamed := by
    refine ⟨_, ?_, rfl⟩
    intro a ha b hb hab
    exact Numbering.getD_ofList_inj ha hb (by simpa using hab)

end Method

namespace Class

variable {tree : Class} {methods : List Method}

theorem alike_encodeBody (recompute : Code.Recompute) (hierarchy : Hierarchy)
    (h : List.Forall₂ (fun method method' =>
      Build.Alike Eq (method.encode (tree.setting recompute hierarchy))
        (method'.encode (tree.setting recompute hierarchy))) tree.methods methods) :
    Build.Alike Eq (tree.encodeBody recompute hierarchy)
      ({ tree with methods }.encodeBody recompute hierarchy) := by
  unfold encodeBody
  refine (Build.Alike.refl (Build.classRef tree.name)).bind_eq fun name => ?_
  refine (Build.Alike.refl (Build.classRef? tree.superName)).bind_eq fun superName => ?_
  refine (Build.Alike.refl (tree.interfaces.mapM Build.classRef)).bind_eq fun interfaces => ?_
  refine (Build.Alike.refl (tree.fields.mapM Field.encode)).bind_eq fun fields => ?_
  refine (alike_mapM h).bind_eq fun encoded => ?_
  exact .refl _

theorem write_iff_of_alike {recompute : Code.Recompute} {hierarchy : Hierarchy}
    (h : List.Forall₂ (fun method method' =>
      Build.Alike Eq (method.encode (tree.setting recompute hierarchy))
        (method'.encode (tree.setting recompute hierarchy))) tree.methods methods)
    {bytes : Bytes} : tree.write recompute hierarchy = .ok bytes ↔
      { tree with methods }.write recompute hierarchy = .ok bytes := by
  have hbody := alike_encodeBody recompute hierarchy h
  rw [write_eq_ok, write_eq_ok]
  exact exists₂_congr fun body b => and_congr_left fun _ => hbody.yields_iff

/-- Labels can be renamed in any methods of a class, and any methods can be replaced by copies of
them: it is the same bytes that are written, if any are. -/
theorem write_renamed (tree : Class) (recompute : Code.Recompute) (hierarchy : Hierarchy)
    (bytes : Bytes) :
    (∀ methods, List.Forall₂ Method.Renamed tree.methods methods →
      (tree.write recompute hierarchy = .ok bytes ↔
        { tree with methods }.write recompute hierarchy = .ok bytes)) ∧
    (∀ methods, List.Forall₂ (fun method method' => method' = method ∨
        method.HandedOut ∧ method' = method.relabelled) tree.methods methods →
      (tree.write recompute hierarchy = .ok bytes ↔
        { tree with methods }.write recompute hierarchy = .ok bytes)) := by
  constructor
  · intro methods h
    exact write_iff_of_alike (h.imp fun method method' hr => hr.alike_encode _)
  · intro methods h
    refine write_iff_of_alike (h.imp fun method method' hr => ?_)
    rcases hr with rfl | ⟨hout, rfl⟩
    · exact .refl _
    · exact hout.renamed_relabelled.alike_encode _

end Class

namespace Looping

/-- The method with its label called otherwise, among others that nothing mentions. -/
def elsewhere : Method :=
  Method.looping.mapLabels (fun label => ⟨label.index + 4⟩) 9

theorem renamed_elsewhere : Method.looping.Renamed elsewhere where
  before := by unfold Method.HandedOut; decide
  after := by unfold Method.HandedOut; decide
  renamed := ⟨_, fun a _ b _ h => by cases a; cases b; simpa using h, rfl⟩

/-- The class with the renamed method, and the one with a copy of that method, are written as the
class is. -/
theorem write_elsewhere : ∃ bytes, Class.looping.write ⟨false, false⟩ .library = .ok bytes ∧
    elsewhere ≠ Method.looping ∧
    { Class.looping with methods := [elsewhere] }.write ⟨false, false⟩ .library = .ok bytes ∧
    { Class.looping with methods := [elsewhere.relabelled] }.write ⟨false, false⟩ .library =
      .ok bytes := by
  obtain ⟨body, b, hy, -, -⟩ := takesShort_encodeBody.takes .empty 0 (by decide)
  have hwrite := Class.write_eq_ok.mpr ⟨body, b, hy, rfl⟩
  have hrenamed := ((Class.write_renamed Class.looping ⟨false, false⟩ .library _).1 [elsewhere]
    (.cons renamed_elsewhere .nil)).mp hwrite
  have hcopied := ((Class.write_renamed { Class.looping with methods := [elsewhere] }
    ⟨false, false⟩ .library _).2 [elsewhere.relabelled]
      (.cons (.inr ⟨renamed_elsewhere.after, rfl⟩) .nil)).mp hrenamed
  exact ⟨_, hwrite, by decide, hrenamed, hcopied⟩

end Looping
end ClassTree
