import ClassTree.Proofs.Text.Quoted

namespace ClassTree.Text

section Scan

variable {σ : Type} {next : σ → Char → Option σ} {state : σ} {x y s t : List Char}

def Returns (next : σ → Char → Option σ) (state : σ) (text : List Char) : Prop :=
  text.foldlM next state = some state

/-- Nothing, or a character that the scan cannot go over. -/
def Halts (next : σ → Char → Option σ) (state : σ) (text : List Char) : Prop :=
  ∀ c ∈ text.head?, next state c = none

theorem Returns.append (hx : Returns next state x) (hy : Returns next state y) :
    Returns next state (x ++ y) := by
  unfold Returns at *
  rw [List.foldlM_append, hx]
  exact hy

theorem returns_of_forall (h : ∀ c ∈ x, next state c = some state) : Returns next state x := by
  induction x with
  | nil => rfl
  | cons c x ih =>
    rw [Returns, List.foldlM_cons, h c List.mem_cons_self]
    exact ih fun c hc => h c (.tail _ hc)

theorem returns_flatMap {α : Type} {f : α → List Char} {l : List α}
    (h : ∀ a ∈ l, Returns next state (f a)) : Returns next state (l.flatMap f) := by
  induction l with
  | nil => rfl
  | cons a l ih => exact (h a List.mem_cons_self).append (ih fun a ha => h a (.tail _ ha))

/-- What the scan goes through does not begin where it halts. -/
theorem eq_nil_of_returns (hx : Returns next state x) (hh : Halts next state (x ++ s)) :
    x = [] := by
  cases x with
  | nil => rfl
  | cons c x =>
    rw [Returns, List.foldlM_cons, hh c rfl] at hx
    cases hx

/-- A text is split in one way only into what the scan goes through and what it halts at. -/
theorem Returns.append_inj (hx : Returns next state x) (hy : Returns next state y)
    (hs : Halts next state s) (ht : Halts next state t) (h : x ++ s = y ++ t) : x = y ∧ s = t := by
  -- the longer one of the two goes on with text that the scan goes through, and halts at
  have hmore : ∀ {a more : List Char}, Returns next state a → Returns next state (a ++ more) →
      Returns next state more := by
    intro a more ha hmore
    rwa [Returns, List.foldlM_append, ha] at hmore
  rcases List.append_eq_append_iff.mp h with ⟨more, rfl, rfl⟩ | ⟨more, rfl, rfl⟩
  · obtain rfl := eq_nil_of_returns (hmore hx hy) hs
    exact ⟨(List.append_nil x).symm, rfl⟩
  · obtain rfl := eq_nil_of_returns (hmore hy hx) ht
    exact ⟨List.append_nil y, rfl⟩

/-- The elements of a list with a separator before each of them. -/
theorem flatMap_separated_inj {sep : List Char} {items others : List String}
    (hsep : ∀ text, Halts next state (sep ++ text)) (hne : sep ≠ [])
    (h : ∀ a ∈ items, Returns next state a.toList) (h' : ∀ a ∈ others, Returns next state a.toList)
    (he : items.flatMap (fun a => sep ++ a.toList) = others.flatMap fun a => sep ++ a.toList) :
    items = others := by
  refine flatMap_inj (P := Halts next state) nofun (fun a s => ?_) (fun a hnil => ?_)
    (fun a ha b hb s t hs ht heq => ?_) he
  · rw [List.append_assoc]
    exact hsep _
  · exact hne (List.append_eq_nil_iff.mp hnil).1
  · rw [List.append_assoc, List.append_assoc] at heq
    obtain ⟨htext, hrest⟩ := (h a ha).append_inj (h' b hb) hs ht (List.append_cancel_left heq)
    exact ⟨String.toList_inj.mp htext, hrest⟩

theorem toList_intercalate_cons (sep first : String) (items : List String) :
    (sep.intercalate (first :: items)).toList =
      first.toList ++ items.flatMap fun a => sep.toList ++ a.toList := by
  induction items generalizing first with
  | nil => simp
  | cons second items ih =>
    rw [String.intercalate_cons_cons, String.toList_append, ih second]
    simp

/-- A list is told from its elements with a separator between them, if each of these can be told
from a separator behind it. -/
theorem intercalate_inj {sep : String} {items others : List String}
    (hsep : ∀ text, Halts next state (sep.toList ++ text)) (hne : sep ≠ "")
    (h : ∀ a ∈ items, a ≠ "" ∧ Returns next state a.toList)
    (h' : ∀ a ∈ others, a ≠ "" ∧ Returns next state a.toList)
    (he : sep.intercalate items = sep.intercalate others) : items = others := by
  have hempty : ∀ {first : String} {rest : List String}, first ≠ "" →
      "" ≠ sep.intercalate (first :: rest) := by
    intro first rest hfirst hnil
    have hlist := congrArg String.toList hnil
    rw [toList_intercalate_cons] at hlist
    exact hfirst (String.toList_eq_nil_iff.mp (List.append_eq_nil_iff.mp hlist.symm).1)
  have htrail : ∀ rest : List String,
      Halts next state (rest.flatMap fun a => sep.toList ++ a.toList) := by
    intro rest
    cases rest with
    | nil => nofun
    | cons a rest =>
      rw [List.flatMap_cons, List.append_assoc]
      exact hsep _
  cases items with
  | nil =>
    cases others with
    | nil => rfl
    | cons b others => exact absurd he (hempty (h' b List.mem_cons_self).1)
  | cons a items =>
    cases others with
    | nil => exact absurd he.symm (hempty (h a List.mem_cons_self).1)
    | cons b others =>
      have hlists := congrArg String.toList he
      rw [toList_intercalate_cons, toList_intercalate_cons] at hlists
      obtain ⟨hfirst, hrest⟩ := (h a List.mem_cons_self).2.append_inj (h' b List.mem_cons_self).2
        (htrail items) (htrail others) hlists
      obtain rfl := String.toList_inj.mp hfirst
      rw [flatMap_separated_inj hsep (mt String.toList_eq_nil_iff.mp hne)
        (fun a ha => (h a (.tail _ ha)).2) (fun a ha => (h' a (.tail _ ha)).2) hrest]

end Scan

def upTo (stop : Char) : Unit → Char → Option Unit := fun _ c =>
  if c = stop then none else some ()

theorem returns_upTo {stop : Char} {text : List Char} (h : stop ∉ text) :
    Returns (upTo stop) () text := by
  refine returns_of_forall fun c hc => if_neg ?_
  rintro rfl
  exact h hc

theorem halts_upTo (stop : Char) (text : List Char) : Halts (upTo stop) () (stop :: text) := by
  intro c hc
  obtain rfl := Option.some.inj hc
  exact if_pos rfl

/-- Where a scan is: so many brackets deep, and there maybe in quotes, or in them behind a
backslash. -/
inductive Place where
  | plain (depth : Nat)
  | quotes (depth : Nat)
  | escaped (depth : Nat)

def openings : List Char := ['(', '[', '\x7b']

def closings : List Char := [')', ']', '\x7d']

/-- Goes over one character. No scan goes over the end of a line, nor over a comma or a closing
bracket that is in no brackets. -/
def Place.next (place : Place) (c : Char) : Option Place :=
  if c = '\n' then none
  else match place with
    | plain depth =>
      if c = '"' then some (quotes depth)
      else if c ∈ openings then some (plain (depth + 1))
      else if c ∈ closings then if depth = 0 then none else some (plain (depth - 1))
      else if c = ',' ∧ depth = 0 then none
      else some (plain depth)
    | quotes depth =>
      if c = '"' then some (plain depth)
      else if c = '\\' then some (escaped depth)
      else some (quotes depth)
    | escaped depth => some (quotes depth)

def Phrase (text : String) : Prop :=
  ∀ depth, Returns Place.next (.plain (depth + 1)) text.toList

structure Word (text : String) : Prop where
  ne_empty : text ≠ ""
  returns : ∀ depth, Returns Place.next (.plain depth) text.toList

def Opens (text : String) : Prop :=
  ∀ depth, text.toList.foldlM Place.next (.plain depth) = some (.plain (depth + 1))

def Closes (text : String) : Prop :=
  ∀ depth, text.toList.foldlM Place.next (.plain (depth + 1)) = some (.plain depth)

def delimiters : List Nat :=
  ('\n' :: '"' :: ',' :: (openings ++ closings)).map Char.toNat

def isSimple (c : Char) : Bool :=
  !delimiters.contains c.toNat

def Simple (text : String) : Prop :=
  ∀ c ∈ text.toList, isSimple c = true

variable {text other opening closing : String}

theorem Word.append (h : Word text) (h' : Word other) : Word (text ++ other) where
  ne_empty he := h.ne_empty (String.append_eq_empty_iff.mp he).1
  returns depth := by
    rw [String.toList_append]
    exact (h.returns depth).append (h'.returns depth)

theorem Word.phrase (h : Word text) : Phrase text :=
  fun depth => h.returns (depth + 1)

/-- A phrase in brackets is a word. -/
theorem Phrase.bracketed (h : Phrase text) (ho : Opens opening) (hc : Closes closing) :
    Word (opening ++ text ++ closing) where
  ne_empty he := by
    obtain ⟨hfront, -⟩ := String.append_eq_empty_iff.mp he
    obtain ⟨rfl, -⟩ := String.append_eq_empty_iff.mp hfront
    cases ho 0
  returns depth := by
    have hopened := ho depth
    have hphrase := h depth
    have hclosed := hc depth
    unfold Returns at *
    rw [String.toList_append, String.toList_append, List.foldlM_append, List.foldlM_append, hopened,
      Option.bind_eq_bind, Option.bind_some, hphrase]
    exact hclosed

theorem Simple.returns (h : Simple text) (depth : Nat) :
    Returns Place.next (.plain depth) text.toList := by
  refine returns_of_forall fun c hc => ?_
  have hn : ∀ d ∈ '\n' :: '"' :: ',' :: (openings ++ closings), c ≠ d := by
    rintro d hd rfl
    have hdelimiter : delimiters.contains c.toNat = true :=
      List.contains_iff_mem.mpr (List.mem_map_of_mem hd)
    have hsimple := h c hc
    rw [isSimple, hdelimiter] at hsimple
    cases hsimple
  simp only [openings, closings, List.mem_cons, List.mem_append, List.not_mem_nil, or_false,
    forall_eq_or_imp] at hn
  simp [Place.next, openings, closings, hn]

theorem Simple.word (h : Simple text) (hne : text ≠ "") : Word text :=
  ⟨hne, h.returns⟩

/-- Characters from `-` to `Z` and from `^` to `z` are none that a scan looks for. -/
theorem isSimple_of_code {c : Char}
    (h : 45 ≤ c.toNat ∧ c.toNat ≤ 90 ∨ 94 ≤ c.toNat ∧ c.toNat ≤ 122) : isSimple c = true := by
  have hn : c.toNat ∉ delimiters := by
    rw [show delimiters = [10, 34, 44, 40, 91, 123, 41, 93, 125] from rfl]
    simp only [List.mem_cons, List.not_mem_nil, or_false]
    omega
  simpa [isSimple] using hn

theorem isSimple_of_mem_hexDigits {c : Char} (hm : c ∈ hexDigits) : isSimple c = true := by
  have hall : hexDigits.all isSimple = true := rfl
  exact List.all_eq_true.mp hall c hm

theorem Simple.append (h : Simple text) (h' : Simple other) : Simple (text ++ other) := by
  intro c hc
  rw [String.toList_append] at hc
  exact (List.mem_append.mp hc).elim (h c) (h' c)

/-- For a literal, which is such a text by definition, the letters need not be computed. -/
theorem simple_ofList (letters : List Char) (h : letters.all isSimple = true) :
    Simple (.ofList letters) := by
  intro c hc
  rw [String.toList_ofList] at hc
  exact List.all_eq_true.mp h c hc

theorem word_ofList (letters : List Char) (h : (!letters.isEmpty && letters.all isSimple) = true) :
    Word (.ofList letters) := by
  obtain ⟨hne, hall⟩ := (Bool.and_eq_true _ _).mp h
  refine (simple_ofList letters hall).word fun he => ?_
  rw [← String.toList_eq_nil_iff, String.toList_ofList] at he
  rw [he] at hne
  cases hne

theorem Simple.bracket_notMem (h : Simple text) : '(' ∉ text.toList := by
  intro hm
  cases h _ hm

/-- A bracket that opens behind simple text. -/
theorem Simple.opens (h : Simple text) (ho : Opens opening) : Opens (text ++ opening) := by
  intro depth
  have hsimple := h.returns depth
  unfold Returns at hsimple
  rw [String.toList_append, List.foldlM_append, hsimple]
  exact ho depth

theorem phrase_intercalate {items : List String} (h : ∀ a ∈ items, Word a) :
    Phrase (", ".intercalate items) := by
  intro depth
  cases items with
  | nil => rfl
  | cons first items =>
    rw [toList_intercalate_cons]
    refine ((h first List.mem_cons_self).phrase depth).append (returns_flatMap fun a ha => ?_)
    exact Returns.append rfl ((h a (.tail _ ha)).phrase depth)

/-- Words with simple text between them are a word. -/
theorem word_intercalate {sep first : String} {items : List String} (hs : Simple sep)
    (h : ∀ a ∈ first :: items, Word a) : Word (sep.intercalate (first :: items)) where
  ne_empty he := by
    rw [← String.toList_eq_nil_iff, toList_intercalate_cons, List.append_eq_nil_iff,
      String.toList_eq_nil_iff] at he
    exact (h first List.mem_cons_self).ne_empty he.1
  returns depth := by
    rw [toList_intercalate_cons]
    refine ((h first List.mem_cons_self).returns depth).append (returns_flatMap fun a ha => ?_)
    exact (hs.returns depth).append ((h a (.tail _ ha)).returns depth)

theorem words_inj {items others : List String} (h : ∀ a ∈ items, Word a)
    (h' : ∀ a ∈ others, Word a) (he : ", ".intercalate items = ", ".intercalate others) :
    items = others := by
  have hcomma : ∀ rest, Halts Place.next (.plain 0) (", ".toList ++ rest) := by
    intro rest c hc
    obtain rfl := Option.some.inj hc
    rfl
  exact intercalate_inj hcomma (by decide) (fun a ha => ⟨(h a ha).ne_empty, (h a ha).returns 0⟩)
    (fun a ha => ⟨(h' a ha).ne_empty, (h' a ha).returns 0⟩) he

theorem returns_quotedChar (depth : Nat) (c : Char) :
    Returns Place.next (.quotes depth) (quotedChar c).toList := by
  have hdigit : ∀ d ∈ hexDigits, Place.next (.quotes depth) d = some (.quotes depth) := by
    simp [hexDigits, Place.next]
  unfold quotedChar
  split
  case h_7 hline hquote hbackslash =>
    have hplain : Returns Place.next (.quotes depth) c.toString.toList := by
      rw [Char.toString_eq_singleton, String.toList_singleton]
      exact returns_of_forall fun d hd => by simp_all [Place.next]
    split
    · exact hplain
    · split
      · have hshape : (codePoint c).toList =
            ['\\', 'u', '\x7b'] ++ ((hex 1 c.toNat).toList ++ ['\x7d']) := by
          simp [codePoint]
        have hdigits : Returns Place.next (.quotes depth) (hex 1 c.toNat).toList :=
          returns_of_forall fun d hd => hdigit d (mem_hexDigits_of_mem_hex hd)
        rw [hshape]
        exact Returns.append rfl (hdigits.append rfl)
      · exact hplain
  all_goals rfl

/-- Quoted text is a word, whatever is in it. -/
theorem word_quoted (text : String) : Word (quoted text) where
  ne_empty he := by simpa [toList_quoted] using congrArg String.toList he
  returns depth := by
    have hbody : Returns Place.next (.quotes depth)
        (text.toList.flatMap fun c => (quotedChar c).toList) :=
      returns_flatMap fun c _ => returns_quotedChar depth c
    rw [toList_quoted, Returns, List.foldlM_cons]
    change List.foldlM _ (Place.quotes depth) _ = _
    rw [List.foldlM_append, hbody]
    rfl

end ClassTree.Text
