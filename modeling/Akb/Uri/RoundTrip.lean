import Akb.Uri.Names
import Akb.Uri.Grammar

/-! Building a URI and parsing it, in both orders. -/
namespace Akb.Uri
open Akb.Library Akb.Library.Segments

/-! ### The shape of what is built -/

/-- `akb://{vault}/coll/{coll}/{marker}/{i}`. -/
def inColl (v c marker i : Text) : Text :=
  scheme ++ v ++ '/' :: ("coll".toList ++ '/' :: (c ++ '/' :: (marker ++ '/' :: i)))

/-- `akb://{vault}/{marker}/{i}`. -/
def atRoot (v marker i : Text) : Text := scheme ++ v ++ '/' :: (marker ++ '/' :: i)

theorem collUri_eq (v : Text) {c : Text} (h : c ≠ []) :
    collUri v c = .ok (scheme ++ v ++ '/' :: ("coll".toList ++ '/' :: c)) := by
  rw [collUri, if_neg h, List.append_assoc]
  rfl

theorem leafUri_some (marker : String) (v i : Text) {c : Text} (h : c ≠ []) :
    leafUri marker v i (some c) = inColl v c marker.toList i := by
  cases c with
  | nil => exact absurd rfl h
  | cons d c => simp [leafUri, inColl]

theorem leafUri_root (marker : String) (v i : Text) {c : Option Text} (h : c = none ∨ c = some []) :
    leafUri marker v i c = atRoot v marker.toList i := by
  rcases h with rfl | rfl <;> simp [leafUri, atRoot]

theorem rsplit_append (c : Text) {base : Text} (h : '/' ∉ base) : rsplit (c ++ '/' :: base) = (c, base) := by
  have hbase : ((c ++ '/' :: base).reverse.takeWhile (· ≠ '/')) = base.reverse := by
    rw [List.reverse_append, List.reverse_cons, List.append_assoc, List.takeWhile_append_of_pos]
    · rw [List.singleton_append, List.takeWhile_cons_of_neg (by simp), List.append_nil]
    · intro d hd
      have hne : d ≠ '/' := fun heq => h (heq ▸ List.mem_reverse.mp hd)
      simpa using hne
  have hlength : (c ++ '/' :: base).length - base.length - 1 = c.length := by
    rw [List.length_append, List.length_cons]
    omega
  rw [rsplit, hbase, List.reverse_reverse, hlength, List.take_left]

theorem docUri_inColl (v c : Text) {base : Text} (h : '/' ∉ base) :
    docUri v (c ++ '/' :: base) = inColl v c "doc".toList base := by
  rw [docUri, if_pos (by simp), rsplit_append c h]
  simp [inColl]

theorem docUri_root (v : Text) {base : Text} (h : '/' ∉ base) : docUri v base = atRoot v "doc".toList base := by
  rw [docUri, if_neg h]
  simp [atRoot]

/-! ### Parsing what was built -/

theorem ident_eq_self {s : Text} (hne : s ≠ []) (h : '\n' ∉ s) : ident s = some s := by
  have hlast : s.getLast? ≠ some '\n' := fun hl => h (List.mem_of_getLast? hl)
  rw [ident, if_neg hlast]
  exact if_pos ⟨hne, h⟩

theorem stripTrailingSlash_eq_self {s : Text} (h : s.getLast? ≠ some '/') : stripTrailingSlash s = some s :=
  if_neg h

theorem Leaf.ident {s : Text} (h : Leaf s) : Uri.ident s = some s := ident_eq_self h.ne_nil h.newline

theorem Leaf.strip {s : Text} (h : Leaf s) : stripTrailingSlash s = some s :=
  stripTrailingSlash_eq_self fun hl => h.slash (List.mem_of_getLast? hl)

theorem typed_length {segments : List Text} {r : Kind × Text} (h : typed segments = some r) : 2 ≤ segments.length := by
  match segments with
  | [] => cases h
  | [_] => cases h
  | _ :: _ :: _ => simp

/-- A leaf behind a marker is read behind the whole collection. -/
theorem typedInColl_leaf {coll : List Text} (hne : coll ≠ []) (hempty : [] ∉ coll) {marker leaf : Text} {kind : Kind}
    (hkind : typeOf marker = some kind) (hleaf : ident leaf = some leaf) :
    typedInColl (coll ++ [marker, leaf]) = some (coll, kind, leaf) := by
  rw [typedInColl_eq_some_iff]
  refine ⟨⟨[marker, leaf], rfl, hne, hempty, by simp [typed, hkind, hleaf]⟩, ?_⟩
  rintro coll' kind' i' ⟨rest, hrest, -, -, htyped⟩
  have hlength := congrArg List.length hrest
  have htwo := typed_length htyped
  simp only [List.length_append, List.length_cons, List.length_nil] at hlength
  omega

theorem typeOf_marker {marker : Text} {kind : Kind} (h : typeOf marker = some kind) :
    '/' ∉ marker ∧ Plain marker ∧ marker ∈ reservedCollectionSegments := by
  unfold typeOf at h
  split at h
  · subst_vars; exact ⟨by decide, by unfold Plain; decide, by decide⟩
  split at h
  · subst_vars; exact ⟨by decide, by unfold Plain; decide, by decide⟩
  split at h
  · subst_vars; exact ⟨by decide, by unfold Plain; decide, by decide⟩
  · cases h

section Parsing
variable {v : Text} (hv : v ≠ []) (hslash : '/' ∉ v) (hplain : Plain v)
include hv hslash hplain

theorem parseUri_inColl {c marker leaf : Text} {kind : Kind} (hc : ∀ segment ∈ split c, segment ≠ []) (hcp : Plain c)
    (hkind : typeOf marker = some kind) (hleaf : Leaf leaf) :
    parseUri (inColl v c marker leaf) =
      some ⟨v, kind, some (if kind = .doc then c ++ '/' :: leaf else leaf), some c⟩ := by
  obtain ⟨hm, hmp, -⟩ := typeOf_marker hkind
  have hbody : Plain ("coll".toList ++ '/' :: (c ++ '/' :: (marker ++ '/' :: leaf))) := by
    simp only [plain_append, plain_cons (show '/' ∉ ['\x7b', '\x7d'] by decide)]
    exact ⟨by unfold Plain; decide, hcp, hmp, hleaf.plain⟩
  have hparts : split ("coll".toList ++ '/' :: (c ++ '/' :: (marker ++ '/' :: leaf))) =
      "coll".toList :: (split c ++ [marker, leaf]) := by
    rw [split_marker (by decide), split_append, split_marker hm, split_of_notMem hleaf.slash]
  rw [inColl, parseUri_parts hv hslash ⟨hplain, hbody⟩, hparts, parseParts_coll,
    typedInColl_leaf (split_ne_nil c) (fun h => hc [] h rfl) hkind hleaf.ident]
  simp only [hleaf.strip, Option.map_some, join_split]

theorem parseUri_atRoot {marker leaf : Text} {kind : Kind} (hkind : typeOf marker = some kind) (hleaf : Leaf leaf) :
    parseUri (atRoot v marker leaf) = some ⟨v, kind, some leaf, none⟩ := by
  obtain ⟨hm, hmp, -⟩ := typeOf_marker hkind
  have hbody : Plain (marker ++ '/' :: leaf) := by
    simp only [plain_append, plain_cons (show '/' ∉ ['\x7b', '\x7d'] by decide)]
    exact ⟨hmp, hleaf.plain⟩
  rw [atRoot, parseUri_parts hv hslash ⟨hplain, hbody⟩, split_marker hm, parseParts_typed hkind, hleaf.ident,
    Option.bind_some, hleaf.strip, Option.map_some]

theorem parseUri_collUri {c : Text} (hne : c ≠ [])
    (hc : ∀ segment ∈ split c, segment ≠ [] ∧ '\n' ∉ segment ∧ segment ∉ reservedCollectionSegments) (hcp : Plain c) :
    (collUri v c).toOption.bind parseUri = some ⟨v, .coll, some c, some c⟩ := by
  have hbody : Plain ("coll".toList ++ '/' :: c) := by
    simp only [plain_append, plain_cons (show '/' ∉ ['\x7b', '\x7d'] by decide)]
    exact ⟨by unfold Plain; decide, hcp⟩
  have hnone : typedInColl (split c) = none := by
    rw [typedInColl_eq_none_iff]
    rintro coll kind i ⟨rest, hrest, -, -, htyped⟩
    cases rest with
    | nil => cases htyped
    | cons marker more =>
      have hkind : ∃ kind, typeOf marker = some kind := by
        cases more with
        | nil => cases htyped
        | cons leaf more =>
          simp only [typed, Option.bind_eq_bind, Option.bind_eq_some_iff] at htyped
          obtain ⟨kind, hkind, -⟩ := htyped
          exact ⟨kind, hkind⟩
      obtain ⟨kind, hkind⟩ := hkind
      exact (hc marker (by rw [hrest]; simp)).2.2 (typeOf_marker hkind).2.2
  have hlast : (split c).getLast? ≠ some [] := fun h => (hc [] (List.mem_of_getLast? h)).1 rfl
  have hcoll : collOnly (split c) = some (split c) := by
    rw [collOnly, if_neg hlast]
    exact if_pos ⟨split_ne_nil c, fun h => (hc [] h).1 rfl⟩
  rw [collUri_eq v hne, Except.toOption, Option.bind_some, parseUri_parts hv hslash ⟨hplain, hbody⟩,
    split_marker (by decide), parseParts_coll, hnone]
  simp only [hcoll, Option.map_some, join_split]

end Parsing

/-! ### Built, then parsed -/

/-- The collection that a URI names. -/
def collection (c : Text) : Option Text := if c = [] then none else some c

/-- Every resource of a vault and a collection, and the collection itself, is found again by its URI. -/
structure RoundTrips (u : Unicode) (v c : Text) : Prop where
  coll : c ≠ [] → (collUri v c).toOption.bind parseUri = some ⟨v, .coll, some c, some c⟩
  doc : ∀ title, parseUri (docUri v (docPath c (slugify u title))) =
    some ⟨v, .doc, some (docPath c (slugify u title)), collection c⟩
  table : ∀ name, isTableName name → parseUri (tableUri v name (some c)) = some ⟨v, .table, some name, collection c⟩ ∧
    parseUri (tableUri v name none) = some ⟨v, .table, some name, none⟩
  file : ∀ id : Native.Uuid,
    parseUri (fileUri v id.str.toList (some c)) = some ⟨v, .file, some id.str.toList, collection c⟩ ∧
      parseUri (fileUri v id.str.toList none) = some ⟨v, .file, some id.str.toList, none⟩

theorem roundTrips_iff (u : Unicode) {v c : Text} {path : Option Text} {allowEmpty : Bool} (hslash : '/' ∉ v)
    (hplain : Plain v) (hc : normalizeCollectionPath path allowEmpty = .ok c) :
    RoundTrips u v c ↔ v ≠ [] ∧ Plain c := by
  constructor
  · intro h
    constructor
    · rintro rfl
      have hname := (h.table ['a'] (by decide)).2
      revert hname
      decide
    · by_cases hne : c = []
      · subst hne
        exact ⟨List.not_mem_nil, List.not_mem_nil⟩
      · have hcoll := h.coll hne
        rw [collUri_eq v hne, Except.toOption, Option.bind_some] at hcoll
        obtain ⟨_, _, _, huri, -⟩ := parseUri_some hcoll
        simp only [plain_append, plain_cons (show '/' ∉ ['\x7b', '\x7d'] by decide)] at huri
        exact huri.2.2
  · rintro ⟨hv, hcp⟩
    by_cases hne : c = []
    · subst hne
      refine ⟨fun h => absurd rfl h, fun title => ?_, fun name hname => ?_, fun id => ?_⟩
      · have hleaf := leaf_slug u title
        rw [docPath, if_pos rfl, docUri_root v hleaf.slash]
        exact parseUri_atRoot hv hslash hplain rfl hleaf
      · rw [tableUri, tableUri, leafUri_root _ _ _ (Or.inr rfl), leafUri_root _ _ _ (Or.inl rfl)]
        have hroot := parseUri_atRoot hv hslash hplain (show typeOf "table".toList = some .table from rfl) (leaf_table hname)
        exact ⟨hroot, hroot⟩
      · rw [fileUri, fileUri, leafUri_root _ _ _ (Or.inr rfl), leafUri_root _ _ _ (Or.inl rfl)]
        have hroot := parseUri_atRoot hv hslash hplain (show typeOf "file".toList = some .file from rfl) (leaf_file id)
        exact ⟨hroot, hroot⟩
    · have hsegments := (normalizeCollectionPath_ok hc).resolve_left hne
      have hempty : ∀ segment ∈ split c, segment ≠ [] := fun segment hs => (hsegments segment hs).1
      have hcollection : collection c = some c := if_neg hne
      refine ⟨parseUri_collUri hv hslash hplain hne hsegments hcp |> fun h _ => h, fun title => ?_, fun name hname => ?_,
        fun id => ?_⟩
      · have hleaf := leaf_slug u title
        rw [docPath, if_neg hne, List.append_assoc, List.cons_append, docUri_inColl v c hleaf.slash, hcollection]
        exact parseUri_inColl hv hslash hplain hempty hcp (show typeOf "doc".toList = some .doc from rfl) hleaf
      · rw [tableUri, tableUri, leafUri_some _ _ _ hne, leafUri_root _ _ _ (Or.inl rfl), hcollection]
        exact ⟨parseUri_inColl hv hslash hplain hempty hcp (show typeOf "table".toList = some .table from rfl)
          (leaf_table hname), parseUri_atRoot hv hslash hplain rfl (leaf_table hname)⟩
      · rw [fileUri, fileUri, leafUri_some _ _ _ hne, leafUri_root _ _ _ (Or.inl rfl), hcollection]
        exact ⟨parseUri_inColl hv hslash hplain hempty hcp (show typeOf "file".toList = some .file from rfl)
          (leaf_file id), parseUri_atRoot hv hslash hplain rfl (leaf_file id)⟩

end Akb.Uri

/-! Different resources of one vault have different URIs. -/
namespace Akb.Uri
open Akb.Library

/-- A text ends in one way in a marker and an identifier without slashes. -/
theorem tail_inj {front front' marker marker' i i' : Text} (hm : '/' ∉ marker) (hm' : '/' ∉ marker') (hi : '/' ∉ i)
    (hi' : '/' ∉ i') (h : front ++ '/' :: (marker ++ '/' :: i) = front' ++ '/' :: (marker' ++ '/' :: i')) :
    front = front' ∧ marker = marker' ∧ i = i' := by
  have hshape (f m j : Text) : f ++ '/' :: (m ++ '/' :: j) = (f ++ '/' :: m) ++ '/' :: j := by simp
  rw [hshape, hshape] at h
  have hlast := congrArg rsplit h
  rw [rsplit_append _ hi, rsplit_append _ hi'] at hlast
  obtain ⟨hfront, rfl⟩ := Prod.mk.inj hlast
  have hfirst := congrArg rsplit hfront
  rw [rsplit_append _ hm, rsplit_append _ hm'] at hfirst
  obtain ⟨rfl, rfl⟩ := Prod.mk.inj hfirst
  exact ⟨rfl, rfl, rfl⟩

/-- What stands in front of the marker. -/
def uriFront (v : Text) : Option Text → Text
  | none => scheme ++ v
  | some c => scheme ++ v ++ '/' :: ("coll".toList ++ '/' :: c)

theorem uriFront_inj {v : Text} {c c' : Option Text} (h : uriFront v c = uriFront v c') : c = c' := by
  have hlong (d : Text) : scheme ++ v ≠ scheme ++ v ++ '/' :: ("coll".toList ++ '/' :: d) := by
    intro he
    have := congrArg List.length he
    simp only [List.length_append, List.length_cons] at this
    omega
  cases c with
  | none =>
    cases c' with
    | none => rfl
    | some d => exact absurd h (hlong d)
  | some c =>
    cases c' with
    | none => exact absurd h.symm (hlong c)
    | some d =>
      have hc := List.append_cancel_left h
      simp only [List.cons.injEq, List.append_cancel_left_eq, true_and] at hc
      rw [hc]

/-- The path of a document from its directory and its name. -/
def pathIn (base : Text) : Option Text → Text
  | none => base
  | some dir => dir ++ '/' :: base

/-- A document's URI, by its directory and its name. -/
theorem docUri_shape (v path : Text) : ∃ dir base, '/' ∉ base ∧
    docUri v path = uriFront v dir ++ '/' :: ("doc".toList ++ '/' :: base) ∧
    path = pathIn base dir := by
  by_cases hslash : '/' ∈ path
  · obtain ⟨as, bs, hrev, hnot⟩ := List.eq_append_cons_of_mem (List.mem_reverse.mpr hslash)
    have hpath : path = bs.reverse ++ '/' :: as.reverse := by
      rw [← List.reverse_reverse path, hrev]
      simp
    have hbase : '/' ∉ as.reverse := fun hm => hnot (List.mem_reverse.mp hm)
    refine ⟨some bs.reverse, as.reverse, hbase, ?_, hpath⟩
    rw [hpath, docUri_inColl v _ hbase]
    simp [inColl, uriFront]
  · exact ⟨none, path, hslash, by rw [docUri_root v hslash]; rfl, rfl⟩

theorem docUri_inj {v path path' : Text} (h : docUri v path = docUri v path') : path = path' := by
  obtain ⟨dir, base, hbase, huri, hpath⟩ := docUri_shape v path
  obtain ⟨dir', base', hbase', huri', hpath'⟩ := docUri_shape v path'
  rw [huri, huri'] at h
  obtain ⟨hfront, -, rfl⟩ := tail_inj (by decide) (by decide) hbase hbase' h
  rw [hpath, hpath', uriFront_inj hfront]

theorem leafUri_shape (marker : String) (v i : Text) (collection : Option Text) :
    ∃ dir, leafUri marker v i collection = uriFront v dir ++ '/' :: (marker.toList ++ '/' :: i) := by
  match collection with
  | none => exact ⟨none, by rw [leafUri_root _ _ _ (Or.inl rfl)]; rfl⟩
  | some [] => exact ⟨none, by rw [leafUri_root _ _ _ (Or.inr rfl)]; rfl⟩
  | some (c :: coll) =>
    refine ⟨some (c :: coll), ?_⟩
    rw [leafUri_some _ _ _ (List.cons_ne_nil _ _)]
    simp [inColl, uriFront]

end Akb.Uri
