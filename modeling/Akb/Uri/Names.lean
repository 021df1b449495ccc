import Akb.Library.Fallible
import Akb.Native.Ledger
import Akb.Uri.Grammar

/-! The names that URIs are built from: collection paths, document slugs, tables and files. -/
namespace Akb.Uri
open Akb.Library Akb.Library.Segments

def maxPathBytes : Nat := 1024

def reservedCollectionSegments : List Text := ["coll", "doc", "table", "file"].map String.toList

inductive PathError where
  | empty
  | tooLong
  | emptySegment (path : Text)
  | invalidCharacter (path : Text)
  | reservedSegment (path segment : Text)

def PathError.message : PathError → String
  | .empty => "collection path is empty"
  | .tooLong => "collection path is too long"
  | .emptySegment path =>
    "Invalid collection path: '" ++ String.ofList path ++ "'. Empty / '.' / '..' segments are not allowed."
  | .invalidCharacter path => "Invalid character in collection path: '" ++ String.ofList path ++ "'"
  | .reservedSegment path segment =>
    "Invalid collection path: '" ++ String.ofList path ++ "'. Segment '" ++ String.ofList segment ++
      "' is a URI structural marker; using it as a collection name creates ambiguity in the canonical URI form " ++
      "(akb://V/coll/<path>/<type>/<id>). Choose a different name. Reserved segments: " ++
      "['coll', 'doc', 'file', 'table']."

/-- `len(path.encode("utf-8"))`. -/
def utf8Length (path : Text) : Nat := (path.map Char.utf8Size).sum

/-- `path.strip("/")`. -/
def stripSlashes (path : Text) : Text := ((path.dropWhile (· = '/')).reverse.dropWhile (· = '/')).reverse

def checkSegment (path segment : Text) : Except PathError Unit :=
  if segment ∈ [[], ['.'], ['.', '.']] then .error (.emptySegment path)
  else if segment.any (fun c => c == '\\' || c.toNat < 32) then .error (.invalidCharacter path)
  else if segment ∈ reservedCollectionSegments then .error (.reservedSegment path segment)
  else .ok ()

def normalizeCollectionPath (path : Option Text) (allowEmpty : Bool) : Except PathError Text :=
  let normalized := stripSlashes (PyText.strip (path.getD []))
  if normalized = [] then if allowEmpty then .ok [] else .error .empty
  else if maxPathBytes < utf8Length normalized then .error .tooLong
  else do
    (split normalized).forM (checkSegment (path.getD []))
    return join (split normalized)

/-- The tables of Unicode that `str.lower` and `\w` go by; of `\w` only the ASCII part matters here. -/
structure Unicode where
  lower : Text → Text
  isWord : Char → Bool
  word_ascii : ∀ c, c.toNat < 128 → isWord c = (c.isAlphanum || c == '_')

def slugMax : Nat := 80

def isHyphenated (c : Char) : Bool := c == '-' || PyText.isSpace c

/-- `re.sub(r"[-\s]+", "-", slug)`; `within` tells that the run before is already written. -/
def hyphenate (within : Bool) : Text → Text
  | [] => []
  | c :: s =>
    if isHyphenated c then if within then hyphenate true s else '-' :: hyphenate true s
    else c :: hyphenate false s

/-- `slug.rstrip("-")`. -/
def rstripHyphens (slug : Text) : Text := (slug.reverse.dropWhile (· = '-')).reverse

def slugify (u : Unicode) (title : Text) : Text :=
  let slug := PyText.strip (u.lower title)
  let slug := slug.filter (fun c => u.isWord c || isHyphenated c)
  let slug := rstripHyphens ((hyphenate false slug).dropWhile (· = '-'))
  let slug := rstripHyphens (slug.take slugMax)
  if slug = [] then "untitled".toList else slug

def docPath (collection slug : Text) : Text :=
  if collection = [] then slug ++ ".md".toList else collection ++ '/' :: slug ++ ".md".toList

/-- `^[a-z][a-z0-9_]*$`, matched in full. -/
def isTableName (name : Text) : Bool :=
  name.head?.any Char.isLower && name.all (fun c => c.isLower || c.isDigit || c == '_')

/-! ### What the names are made of -/

/-- One segment that stands in a URI as it is. -/
structure Leaf (s : Text) : Prop where
  ne_nil : s ≠ []
  slash : '/' ∉ s
  newline : '\n' ∉ s
  plain : '\x7b' ∉ s ∧ '\x7d' ∉ s

theorem checkSegment_ok {path segment : Text} (h : checkSegment path segment = .ok ()) :
    segment ≠ [] ∧ '\n' ∉ segment ∧ segment ∉ reservedCollectionSegments := by
  unfold checkSegment at h
  split at h
  · cases h
  rename_i hdots
  split at h
  · cases h
  rename_i hchars
  split at h
  · cases h
  rename_i hreserved
  refine ⟨fun hnil => hdots (by simp [hnil]), fun hm => hchars ?_, hreserved⟩
  exact List.any_eq_true.mpr ⟨'\n', hm, by decide⟩

/-- What a normalized path is: empty, or segments that pass their check. -/
theorem normalizeCollectionPath_ok {path : Option Text} {allowEmpty : Bool} {c : Text}
    (h : normalizeCollectionPath path allowEmpty = .ok c) :
    c = [] ∨ ∀ segment ∈ split c, segment ≠ [] ∧ '\n' ∉ segment ∧ segment ∉ reservedCollectionSegments := by
  unfold normalizeCollectionPath at h
  simp only at h
  split at h
  · split at h
    · exact Or.inl (Except.ok.inj h).symm
    · cases h
  split at h
  · cases h
  obtain ⟨⟨⟩, hall, hc⟩ := bind_eq_ok.mp h
  rw [← pure_eq_ok.mp hc, join_split]
  exact Or.inr fun segment hs => checkSegment_ok (forM_eq_ok hall segment hs)

theorem leaf_of_chars {s : Text} (hne : s ≠ []) (h : ∀ c ∈ s, c ∉ ['/', '\n', '\x7b', '\x7d']) : Leaf s :=
  ⟨hne, fun hc => h _ hc (by decide), fun hc => h _ hc (by decide), fun hc => h _ hc (by decide),
    fun hc => h _ hc (by decide)⟩

theorem mem_hyphenate {within : Bool} {s : Text} {c : Char} (h : c ∈ hyphenate within s) :
    c = '-' ∨ (c ∈ s ∧ isHyphenated c = false) := by
  induction s generalizing within with
  | nil => cases h
  | cons d s ih =>
    have hrest {within : Bool} (hc : c ∈ hyphenate within s) : c = '-' ∨ (c ∈ d :: s ∧ isHyphenated c = false) :=
      (ih hc).imp_right fun ⟨hm, hh⟩ => ⟨List.mem_cons_of_mem _ hm, hh⟩
    rw [hyphenate] at h
    split at h
    · split at h
      · exact hrest h
      · rcases List.mem_cons.mp h with h | h
        · exact Or.inl h
        · exact hrest h
    · rename_i hd
      rcases List.mem_cons.mp h with rfl | h
      · exact Or.inr ⟨List.mem_cons_self, by simpa using hd⟩
      · exact hrest h

/-- A slug is made of word characters and hyphens. -/
theorem mem_slugify {u : Unicode} {title : Text} {c : Char} (h : c ∈ slugify u title) : c = '-' ∨ u.isWord c := by
  have hstrip {s : Text} (hc : c ∈ rstripHyphens s) : c ∈ s := by
    rw [rstripHyphens, List.mem_reverse] at hc
    exact List.mem_reverse.mp ((List.dropWhile_sublist _).subset hc)
  unfold slugify at h
  simp only at h
  split at h
  · have hletters : ∀ c ∈ "untitled".toList, c.toNat < 128 ∧ c.isAlphanum := by decide
    obtain ⟨hascii, hletter⟩ := hletters c h
    exact Or.inr (by rw [u.word_ascii c hascii, hletter, Bool.true_or])
  · have hc := hstrip (List.mem_of_mem_take (hstrip h))
    rcases mem_hyphenate ((List.dropWhile_sublist _).subset hc) with hhyphen | ⟨hm, hh⟩
    · exact Or.inl hhyphen
    · have hword := List.of_mem_filter hm
      rw [hh, Bool.or_false] at hword
      exact Or.inr hword

theorem slugify_ne_nil (u : Unicode) (title : Text) : slugify u title ≠ [] := by
  unfold slugify
  simp only
  split
  · decide
  · assumption

/-- The leaf of a document path. -/
theorem leaf_slug (u : Unicode) (title : Text) : Leaf (slugify u title ++ ".md".toList) := by
  refine leaf_of_chars (by simp) fun c hc hm => ?_
  rcases List.mem_append.mp hc with hc | hc
  · have hsigns : ∀ c ∈ ['/', '\n', '\x7b', '\x7d'], c.toNat < 128 ∧ c ≠ '-' ∧ (c.isAlphanum || c == '_') = false := by
      decide
    obtain ⟨hascii, hhyphen, hsign⟩ := hsigns c hm
    rcases mem_slugify hc with hc | hc
    · exact hhyphen hc
    · rw [u.word_ascii c hascii, hsign] at hc
      cases hc
  · have hsuffix : ∀ c ∈ ".md".toList, c ∉ ['/', '\n', '\x7b', '\x7d'] := by decide
    exact hsuffix c hc hm

theorem leaf_table {name : Text} (h : isTableName name) : Leaf name := by
  obtain ⟨hhead, hall⟩ := Bool.and_eq_true_iff.mp h
  refine leaf_of_chars (fun hnil => by rw [hnil] at hhead; cases hhead) fun c hc hm => ?_
  have hsigns : ∀ c ∈ ['/', '\n', '\x7b', '\x7d'], (c.isLower || c.isDigit || c == '_') = false := by decide
  have hname := List.all_eq_true.mp hall c hc
  rw [hsigns c hm] at hname
  cases hname

theorem leaf_file (id : Native.Uuid) : Leaf id.str.toList := by
  have hhex : ∀ d : BitVec 4, Native.hexDigit d ∉ ['/', '\n', '\x7b', '\x7d'] := by decide
  have hdigit {c : Char} (hc : c ∈ id.digits) : c ∉ ['/', '\n', '\x7b', '\x7d'] := by
    obtain ⟨i, -, rfl⟩ := List.mem_map.mp hc
    exact hhex _
  have hhyphen : '-' ∉ ['/', '\n', '\x7b', '\x7d'] := by decide
  refine leaf_of_chars (by simp [Native.Uuid.str]) fun c hc => ?_
  simp only [Native.Uuid.str, String.toList_ofList, List.mem_append, List.mem_cons] at hc
  rcases hc with (((hc | rfl | hc) | rfl | hc) | rfl | hc) | rfl | hc
  · exact hdigit (List.mem_of_mem_take hc)
  · exact hhyphen
  · exact hdigit (List.mem_of_mem_drop (List.mem_of_mem_take hc))
  · exact hhyphen
  · exact hdigit (List.mem_of_mem_drop (List.mem_of_mem_take hc))
  · exact hhyphen
  · exact hdigit (List.mem_of_mem_drop (List.mem_of_mem_take hc))
  · exact hhyphen
  · exact hdigit (List.mem_of_mem_drop hc)

end Akb.Uri
