import Akb.Library.PyText

/-! The URI scheme: the builders and the parser. -/
namespace Akb.Uri
open Akb.Library Akb.Library.Segments

abbrev Text := List Char

inductive Kind where
  | vault
  | coll
  | doc
  | table
  | file
  deriving DecidableEq

structure ParsedUri where
  vault : Text
  kind : Kind
  identifier : Option Text
  collPath : Option Text
  deriving DecidableEq

def scheme : Text := "akb://".toList

/-- The group `(doc|table|file)`. -/
def typeOf (segment : Text) : Option Kind :=
  if segment = "doc".toList then some .doc
  else if segment = "table".toList then some .table
  else if segment = "file".toList then some .file
  else none

/-! ### Building -/

def vaultUri (vault : Text) : Text := scheme ++ vault

def collUri (vault collPath : Text) : Except String Text :=
  if collPath = [] then .error "coll_uri requires a non-empty collection path"
  else .ok (scheme ++ vault ++ "/coll/".toList ++ collPath)

/-- `path.rsplit("/", 1)` of a path that has a slash. -/
def rsplit (path : Text) : Text × Text :=
  let basename := (path.reverse.takeWhile (· ≠ '/')).reverse
  (path.take (path.length - basename.length - 1), basename)

def docUri (vault path : Text) : Text :=
  if '/' ∈ path then
    scheme ++ vault ++ "/coll/".toList ++ (rsplit path).1 ++ "/doc/".toList ++ (rsplit path).2
  else scheme ++ vault ++ "/doc/".toList ++ path

/-- What `table_uri` and `file_uri` share. -/
def leafUri (marker : String) (vault identifier : Text) (collection : Option Text) : Text :=
  match collection with
  | some (c :: coll) => scheme ++ vault ++ "/coll/".toList ++ c :: coll ++ '/' :: marker.toList ++ '/' :: identifier
  | _ => scheme ++ vault ++ '/' :: marker.toList ++ '/' :: identifier

def tableUri (vault name : Text) (collection : Option Text) : Text := leafUri "table" vault name collection

def fileUri (vault fileId : Text) (collection : Option Text) : Text := leafUri "file" vault fileId collection

/-! ### Parsing -/

/-- `(.+)$`: no newline within, one allowed behind. -/
def ident (s : Text) : Option Text :=
  let body := if s.getLast? = some '\n' then s.dropLast else s
  if body ≠ [] ∧ '\n' ∉ body then some body else none

def stripTrailingSlash (s : Text) : Option Text :=
  if s.getLast? = some '/' then
    let stripped := (s.reverse.dropWhile (· = '/')).reverse
    if stripped = [] then none else some stripped
  else some s

/-- The groups `(doc|table|file)/(.+)$`. -/
def typed : List Text → Option (Kind × Text)
  | marker :: leaf :: more => do
    let kind ← typeOf marker
    let i ← ident (join (leaf :: more))
    some (kind, i)
  | _ => none

/-- The greedy collection group, then the type and the identifier: a longer collection is
tried before a shorter one. -/
def typedInColl : List Text → Option (List Text × Kind × Text)
  | [] => none
  | segment :: rest =>
    if segment = [] then none
    else
      match typedInColl rest with
      | some (coll, kind, i) => some (segment :: coll, kind, i)
      | none => (typed rest).map (fun r => ([segment], r.1, r.2))

/-- The collection group up to the end, a slash allowed behind. -/
def collOnly (segments : List Text) : Option (List Text) :=
  let coll := if segments.getLast? = some [] then segments.dropLast else segments
  if coll ≠ [] ∧ [] ∉ coll then some coll else none

/-- What the four patterns make of the segments behind the vault, in their order. -/
def parseParts (vault : Text) (parts : List Text) : Option ParsedUri :=
  let segments := if parts.head? = some "coll".toList then parts.tail else []
  match typedInColl segments with
  | some (coll, kind, i) => do
    let i ← stripTrailingSlash i
    some ⟨vault, kind, some (if kind = .doc then join coll ++ '/' :: i else i), some (join coll)⟩
  | none =>
    match collOnly segments with
    | some coll => some ⟨vault, .coll, some (join coll), some (join coll)⟩
    | none =>
      match typed parts with
      | some (kind, i) => do
        let i ← stripTrailingSlash i
        some ⟨vault, kind, some i, none⟩
      | none => if parts ∈ [[], [[]], [['\n']]] then some ⟨vault, .vault, none, none⟩ else none

def parseUri (uri : Text) : Option ParsedUri :=
  if '\x7b' ∈ uri ∨ '\x7d' ∈ uri then none
  else if scheme <+: uri then
    match split (uri.drop scheme.length) with
    | [] => none
    | vault :: parts => if vault = [] then none else parseParts vault parts
  else none

/-- The builder that belongs to a parsed URI. -/
def rebuild (r : ParsedUri) : Except String Text :=
  match r.kind with
  | .vault => .ok (vaultUri r.vault)
  | .coll => collUri r.vault (r.collPath.getD [])
  | .doc => .ok (docUri r.vault (r.identifier.getD []))
  | .table => .ok (tableUri r.vault (r.identifier.getD []) r.collPath)
  | .file => .ok (fileUri r.vault (r.identifier.getD []) r.collPath)

/-! What the parser reads: the longest collection that a type and an identifier follow. -/
/-- One way to read the segments behind `coll`: a collection, a type and an identifier. -/
def Reading (segments coll : List Text) (kind : Kind) (i : Text) : Prop :=
  ∃ rest, segments = coll ++ rest ∧ coll ≠ [] ∧ [] ∉ coll ∧ typed rest = some (kind, i)

/-- The reading with the longest collection. -/
def Longest (segments coll : List Text) (kind : Kind) (i : Text) : Prop :=
  Reading segments coll kind i ∧ ∀ coll' kind' i', Reading segments coll' kind' i' → coll'.length ≤ coll.length

theorem Reading.cons {segment : Text} {rest coll : List Text} {kind : Kind} {i : Text} (hs : segment ≠ [])
    (h : Reading rest coll kind i) : Reading (segment :: rest) (segment :: coll) kind i := by
  obtain ⟨tail, rfl, -, hempty, htyped⟩ := h
  exact ⟨tail, rfl, List.cons_ne_nil _ _, by simp [hempty, Ne.symm hs], htyped⟩

theorem typedInColl_reading {segments coll : List Text} {kind : Kind} {i : Text}
    (h : typedInColl segments = some (coll, kind, i)) : Reading segments coll kind i := by
  induction segments generalizing coll with
  | nil => cases h
  | cons segment rest ih =>
    rw [typedInColl] at h
    split at h
    · cases h
    rename_i hs
    split at h
    · rename_i hrest
      cases h
      exact (ih hrest).cons hs
    · obtain ⟨⟨_, _⟩, htyped, hr⟩ := Option.map_eq_some_iff.mp h
      cases hr
      exact ⟨rest, rfl, List.cons_ne_nil _ _, by simp [Ne.symm hs], htyped⟩

theorem Reading.found {segments coll : List Text} {kind : Kind} {i : Text} (h : Reading segments coll kind i) :
    ∃ r, typedInColl segments = some r ∧ coll.length ≤ r.1.length := by
  induction segments generalizing coll with
  | nil =>
    obtain ⟨tail, hsegments, hne, -⟩ := h
    exact absurd (List.append_eq_nil_iff.mp hsegments.symm).1 hne
  | cons segment rest ih =>
    obtain ⟨tail, hsegments, hne, hempty, htyped⟩ := h
    cases coll with
    | nil => exact absurd rfl hne
    | cons first coll =>
      obtain ⟨rfl, rfl⟩ := List.cons.inj hsegments
      have hs : segment ≠ [] := fun hnil => hempty (hnil ▸ List.mem_cons_self)
      rw [typedInColl, if_neg hs]
      cases hrest : typedInColl (coll ++ tail) with
      | some r =>
        refine ⟨_, rfl, ?_⟩
        by_cases hcoll : coll = []
        · simp [hcoll]
        · obtain ⟨r', hr', hle⟩ :=
            ih ⟨tail, rfl, hcoll, fun hm => hempty (List.mem_cons_of_mem _ hm), htyped⟩
          obtain rfl := Option.some.inj (hrest.symm.trans hr')
          simpa using hle
      | none =>
        by_cases hcoll : coll = []
        · subst hcoll
          simp [htyped]
        · obtain ⟨r', hr', -⟩ :=
            ih ⟨tail, rfl, hcoll, fun hm => hempty (List.mem_cons_of_mem _ hm), htyped⟩
          cases hrest.symm.trans hr'

theorem Reading.unique {segments coll coll' : List Text} {kind kind' : Kind} {i i' : Text}
    (h : Reading segments coll kind i) (h' : Reading segments coll' kind' i') (hl : coll.length = coll'.length) :
    coll = coll' ∧ kind = kind' ∧ i = i' := by
  obtain ⟨rest, rfl, -, -, htyped⟩ := h
  obtain ⟨rest', hsegments, -, -, htyped'⟩ := h'
  obtain ⟨rfl, rfl⟩ := List.append_inj hsegments hl
  rw [htyped, Option.some.injEq, Prod.mk.injEq] at htyped'
  exact ⟨rfl, htyped'⟩

/-- The pattern finds the longest reading and nothing else. -/
theorem typedInColl_eq_some_iff {segments coll : List Text} {kind : Kind} {i : Text} :
    typedInColl segments = some (coll, kind, i) ↔ Longest segments coll kind i := by
  constructor
  · intro h
    refine ⟨typedInColl_reading h, fun coll' kind' i' h' => ?_⟩
    obtain ⟨r, hr, hle⟩ := h'.found
    rw [h] at hr
    cases hr
    exact hle
  · rintro ⟨h, hmax⟩
    obtain ⟨⟨coll', kind', i'⟩, hr, hle⟩ := h.found
    have h' := typedInColl_reading hr
    obtain ⟨rfl, rfl, rfl⟩ := h.unique h' (Nat.le_antisymm hle (hmax _ _ _ h'))
    exact hr

theorem typedInColl_eq_none_iff {segments : List Text} :
    typedInColl segments = none ↔ ∀ coll kind i, ¬ Reading segments coll kind i := by
  constructor
  · intro h coll kind i hread
    obtain ⟨r, hr, -⟩ := hread.found
    rw [h] at hr
    cases hr
  · intro h
    cases hr : typedInColl segments with
    | none => rfl
    | some r => exact absurd (typedInColl_reading hr) (h _ _ _)

/-! ### What stands behind the vault -/

/-- A text without braces. -/
def Plain (s : Text) : Prop := '\x7b' ∉ s ∧ '\x7d' ∉ s

theorem plain_append {s t : Text} : Plain (s ++ t) ↔ Plain s ∧ Plain t := by
  simp only [Plain, List.mem_append, not_or]
  tauto

theorem plain_cons {c : Char} {s : Text} (hc : c ∉ ['\x7b', '\x7d']) : Plain (c :: s) ↔ Plain s := by
  simp only [Plain, List.mem_cons, not_or, List.not_mem_nil, not_false_eq_true, and_true] at hc ⊢
  exact ⟨fun h => ⟨h.1.2, h.2.2⟩, fun h => ⟨⟨Ne.symm hc.1, h.1⟩, Ne.symm hc.2, h.2⟩⟩

theorem parseUri_vault {v : Text} (hv : v ≠ []) (hslash : '/' ∉ v) (hplain : Plain v) :
    parseUri (scheme ++ v) = parseParts v [] := by
  have hbraces : Plain (scheme ++ v) := plain_append.mpr ⟨by unfold Plain; decide, hplain⟩
  rw [parseUri, if_neg (not_or.mpr hbraces), if_pos (List.prefix_append _ _), List.drop_left,
    split_of_notMem hslash]
  exact if_neg hv

theorem parseUri_parts {v : Text} (hv : v ≠ []) (hslash : '/' ∉ v) {body : Text} (hplain : Plain v ∧ Plain body) :
    parseUri (scheme ++ v ++ '/' :: body) = parseParts v (split body) := by
  have hbraces : Plain (scheme ++ (v ++ '/' :: body)) :=
    plain_append.mpr ⟨by unfold Plain; decide, plain_append.mpr ⟨hplain.1, (plain_cons (by decide)).mpr hplain.2⟩⟩
  rw [List.append_assoc, parseUri, if_neg (not_or.mpr hbraces), if_pos (List.prefix_append _ _), List.drop_left,
    split_append, split_of_notMem hslash]
  exact if_neg hv

/-- What an accepted URI looks like. -/
theorem parseUri_some {uri : Text} {r : ParsedUri} (h : parseUri uri = some r) :
    ∃ v, v ≠ [] ∧ '/' ∉ v ∧ Plain uri ∧ ((uri = scheme ++ v ∧ parseParts v [] = some r) ∨
      ∃ body, uri = scheme ++ v ++ '/' :: body ∧ parseParts v (split body) = some r) := by
  unfold parseUri at h
  split at h
  · cases h
  rename_i hbraces
  split at h
  · rename_i hscheme
    obtain ⟨t, rfl⟩ := hscheme
    rw [List.drop_left] at h
    obtain ⟨v, parts, hparts⟩ := List.exists_cons_of_ne_nil (split_ne_nil t)
    rw [hparts] at h
    simp only at h
    split at h
    · cases h
    rename_i hv
    have ht := join_split t
    have hslash : ∀ segment ∈ v :: parts, '/' ∉ segment := fun segment hs => slash_of_mem_split (hparts ▸ hs)
    refine ⟨v, hv, hslash v List.mem_cons_self, not_or.mp hbraces, ?_⟩
    by_cases hnil : parts = []
    · subst hnil
      rw [hparts, join_singleton] at ht
      exact Or.inl ⟨by rw [ht], h⟩
    · rw [hparts, join_cons v hnil] at ht
      refine Or.inr ⟨join parts, by rw [← ht, List.append_assoc], ?_⟩
      rw [split_join hnil fun segment hs => hslash segment (List.mem_cons_of_mem _ hs)]
      exact h
  · cases h

theorem split_marker {marker : Text} (h : '/' ∉ marker) (s : Text) : split (marker ++ '/' :: s) = marker :: split s := by
  rw [split_append, split_of_notMem h, List.singleton_append]

/-- Behind `coll` only the first two patterns can match. -/
theorem parseParts_coll (v : Text) (segments : List Text) :
    parseParts v ("coll".toList :: segments) =
      match typedInColl segments with
      | some (coll, kind, i) =>
        (stripTrailingSlash i).map (fun i =>
          ⟨v, kind, some (if kind = .doc then join coll ++ '/' :: i else i), some (join coll)⟩)
      | none => (collOnly segments).map (fun coll => ⟨v, .coll, some (join coll), some (join coll)⟩) := by
  have htyped : typed ("coll".toList :: segments) = none := by cases segments <;> rfl
  have hvault : "coll".toList :: segments ∉ [[], [[]], [['\n']]] := by
    simp only [List.mem_cons, List.not_mem_nil, or_false, List.cons.injEq, reduceCtorEq, false_or, not_or]
    exact ⟨fun h => absurd h.1 (by decide), fun h => absurd h.1 (by decide)⟩
  rw [parseParts]
  simp only [List.head?_cons, if_true, List.tail_cons]
  cases typedInColl segments with
  | some r => cases hi : stripTrailingSlash r.2.2 <;> simp [hi]
  | none =>
    cases collOnly segments with
    | some coll => rfl
    | none => simp only [htyped, if_neg hvault, Option.map_none]

theorem typed_cons (marker s : Text) :
    typed (marker :: split s) = (typeOf marker).bind (fun kind => (ident s).map (fun i => (kind, i))) := by
  obtain ⟨leaf, more, hs⟩ := List.exists_cons_of_ne_nil (split_ne_nil s)
  rw [hs, typed, ← hs, join_split]
  cases typeOf marker <;> cases ident s <;> rfl

/-- Without `coll` the third pattern reads a type and an identifier. -/
theorem parseParts_typed {v marker s : Text} {kind : Kind} (hkind : typeOf marker = some kind) :
    parseParts v (marker :: split s) =
      ((ident s).bind stripTrailingSlash).map (fun i => ⟨v, kind, some i, none⟩) := by
  have hcoll : (marker :: split s).head? ≠ some "coll".toList := by
    rintro h
    rw [Option.some.inj h] at hkind
    revert hkind
    cases kind <;> decide
  have hvault : marker :: split s ∉ [[], [[]], [['\n']]] := by
    obtain ⟨leaf, more, hs⟩ := List.exists_cons_of_ne_nil (split_ne_nil s)
    simp [hs]
  have hnone : collOnly [] = none := by decide
  rw [parseParts, if_neg hcoll]
  simp only [typedInColl, hnone, typed_cons, hkind, Option.bind_some]
  cases ident s with
  | none => simp only [Option.map_none, if_neg hvault, Option.bind_none]
  | some i => cases hi : stripTrailingSlash i <;> simp [hi]

end Akb.Uri
