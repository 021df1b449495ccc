import Akb.Uri.RoundTrip

/-! Parsing a URI and building it again. -/
namespace Akb.Uri
open Akb.Library Akb.Library.Segments

/-- The leaf of a document URI has a slash, as in `akb://V/doc/specs/api.md`. -/
def SlashedLeaf (uri : Text) : Prop :=
  ∃ v s i leaf, '/' ∉ v ∧ ident s = some i ∧ stripTrailingSlash i = some leaf ∧ '/' ∈ leaf ∧
    (uri = atRoot v "doc".toList s ∨
      ∃ c, uri = inColl v c "doc".toList s ∧ Longest (split c ++ "doc".toList :: split s) (split c) .doc i)

/-- A newline and a slash stand behind a typed URI in a collection. -/
def NewlineSlash (uri : Text) : Prop :=
  ∃ v c marker kind i, '/' ∉ v ∧ [] ∉ split c ∧ typeOf marker = some kind ∧ i ≠ [] ∧ '\n' ∉ i ∧
    uri = inColl v c marker (i ++ ['\n', '/'])

/-- The language of the four patterns, each with what it makes of its URIs. -/
inductive Accepts : Text → ParsedUri → Prop where
  | typedInColl {v marker s i leaf : Text} {c : List Text} {kind : Kind} :
    v ≠ [] → '/' ∉ v → (∀ segment ∈ c, '/' ∉ segment) → typeOf marker = some kind → ident s = some i →
    Longest (c ++ marker :: split s) c kind i → stripTrailingSlash i = some leaf →
    Accepts (inColl v (join c) marker s)
      ⟨v, kind, some (if kind = .doc then join c ++ '/' :: leaf else leaf), some (join c)⟩
  | collOnly {v s : Text} {c : List Text} :
    v ≠ [] → '/' ∉ v → (∀ c' kind i, ¬ Reading (split s) c' kind i) → Uri.collOnly (split s) = some c →
    Accepts (scheme ++ v ++ '/' :: ("coll".toList ++ '/' :: s)) ⟨v, .coll, some (join c), some (join c)⟩
  | typedRoot {v marker s i leaf : Text} {kind : Kind} :
    v ≠ [] → '/' ∉ v → typeOf marker = some kind → ident s = some i → stripTrailingSlash i = some leaf →
    Accepts (atRoot v marker s) ⟨v, kind, some leaf, none⟩
  | vaultOnly {v tail : Text} : v ≠ [] → '/' ∉ v → tail ∈ [[], ['/'], ['/', '\n']] →
    Accepts (scheme ++ v ++ tail) ⟨v, .vault, none, none⟩

theorem typed_some {segments : List Text} {kind : Kind} {i : Text} (hslash : ∀ segment ∈ segments, '/' ∉ segment)
    (h : typed segments = some (kind, i)) :
    ∃ marker s, segments = marker :: split s ∧ typeOf marker = some kind ∧ ident s = some i := by
  match segments, typed_length h with
  | marker :: leaf :: more, _ =>
    have hsplit : split (join (leaf :: more)) = leaf :: more :=
      split_join (List.cons_ne_nil _ _) fun segment hs => hslash segment (List.mem_cons_of_mem _ hs)
    generalize join (leaf :: more) = s at hsplit
    rw [← hsplit, typed_cons] at h
    obtain ⟨kind', hkind, h⟩ := Option.bind_eq_some_iff.mp h
    obtain ⟨i', hident, hr⟩ := Option.map_eq_some_iff.mp h
    obtain ⟨rfl, rfl⟩ := Prod.mk.inj hr
    exact ⟨marker, s, by rw [hsplit], hkind, hident⟩

theorem accepts_of_parseUri {uri : Text} {r : ParsedUri} (h : parseUri uri = some r) : Plain uri ∧ Accepts uri r := by
  obtain ⟨v, hv, hslash, hplain, ⟨rfl, hparts⟩ | ⟨body, rfl, hparts⟩⟩ := parseUri_some h
  · obtain rfl : ⟨v, .vault, none, none⟩ = r := Option.some.inj hparts
    have hvault := Accepts.vaultOnly hv hslash (show ([] : Text) ∈ [[], ['/'], ['/', '\n']] by decide)
    rw [List.append_nil] at hvault
    exact ⟨hplain, hvault⟩
  refine ⟨hplain, ?_⟩
  have hsegments : ∀ segment ∈ split body, '/' ∉ segment := fun segment hs => slash_of_mem_split hs
  by_cases hcoll : (split body).head? = some "coll".toList
  · obtain ⟨segments, hbody⟩ := List.head?_eq_some_iff.mp hcoll
    rw [hbody, parseParts_coll] at hparts
    rw [hbody, List.forall_mem_cons] at hsegments
    by_cases hnil : segments = []
    · subst hnil
      cases hparts
    have hs : split (join segments) = segments := split_join hnil hsegments.2
    have hsame : body = "coll".toList ++ '/' :: join segments := by
      apply split_inj
      rw [hbody, split_marker hsegments.1, hs]
    subst hsame
    cases htyped : Uri.typedInColl segments with
    | some found =>
      obtain ⟨c, kind, i⟩ := found
      rw [htyped] at hparts
      obtain ⟨leaf, hleaf, rfl⟩ := Option.map_eq_some_iff.mp hparts
      have hlongest := typedInColl_eq_some_iff.mp htyped
      obtain ⟨rest, rfl, hne, -, hrest⟩ := hlongest.1
      obtain ⟨marker, t, rfl, hkind, hident⟩ :=
        typed_some (fun segment hm => hsegments.2 segment (List.mem_append_right _ hm)) hrest
      have hc : ∀ segment ∈ c, '/' ∉ segment := fun segment hm => hsegments.2 segment (List.mem_append_left _ hm)
      have huri : join (c ++ marker :: split t) = join c ++ '/' :: (marker ++ '/' :: t) := by
        rw [join_append hne (List.cons_ne_nil _ _), join_cons marker (split_ne_nil t), join_split]
      rw [huri]
      exact .typedInColl hv hslash hc hkind hident hlongest hleaf
    | none =>
      rw [htyped] at hparts
      obtain ⟨c, hc, rfl⟩ := Option.map_eq_some_iff.mp hparts
      rw [← hs] at hc htyped
      exact .collOnly hv hslash (typedInColl_eq_none_iff.mp htyped) hc
  · have hnone : Uri.collOnly [] = none := by decide
    rw [parseParts, if_neg hcoll] at hparts
    simp only [Uri.typedInColl, hnone] at hparts
    cases htyped : typed (split body) with
    | some found =>
      obtain ⟨kind, i⟩ := found
      simp only [htyped, Option.bind_eq_bind, Option.bind_eq_some_iff, Option.some.injEq] at hparts
      obtain ⟨leaf, hleaf, rfl⟩ := hparts
      obtain ⟨marker, s, hbody, hkind, hident⟩ := typed_some hsegments htyped
      obtain rfl : body = marker ++ '/' :: s := by
        apply split_inj
        rw [hbody, split_marker (typeOf_marker hkind).1]
      exact .typedRoot hv hslash hkind hident hleaf
    | none =>
      simp only [htyped] at hparts
      split at hparts
      · rename_i hvault
        cases hparts
        have htail : body = [] ∨ body = ['\n'] := by
          have hjoin := join_split body
          simp only [List.mem_cons, List.not_mem_nil, or_false] at hvault
          rcases hvault with hvault | hvault | hvault
          · exact absurd hvault (split_ne_nil body)
          · exact Or.inl (by rw [← hjoin, hvault, join_singleton])
          · exact Or.inr (by rw [← hjoin, hvault, join_singleton])
        rcases htail with rfl | rfl
        · exact .vaultOnly hv hslash (by decide)
        · exact .vaultOnly hv hslash (by decide)
      · cases hparts

/-! ### Slashes and a newline behind an identifier -/

/-- What may stand behind an identifier and is not read. -/
def Trailing (w : Text) : Prop := ∃ k, w = List.replicate k '/' ∨ w = List.replicate k '/' ++ ['\n']

theorem ident_some {s i : Text} (h : ident s = some i) : i ≠ [] ∧ '\n' ∉ i ∧ (s = i ∨ s = i ++ ['\n']) := by
  rw [ident] at h
  obtain ⟨hbody, hi⟩ := Option.ite_none_right_eq_some.mp h
  rw [Option.some.inj hi] at hbody
  refine ⟨hbody.1, hbody.2, ?_⟩
  by_cases hlast : s.getLast? = some '\n'
  · rw [if_pos hlast] at hi
    rw [← Option.some.inj hi]
    exact Or.inr (List.dropLast_append_getLast? _ hlast).symm
  · rw [if_neg hlast] at hi
    exact Or.inl (Option.some.inj hi)

theorem ident_trailing {s w : Text} (hne : s ≠ []) (hnl : '\n' ∉ s) (hw : Trailing w) : ∃ i, ident (s ++ w) = some i := by
  obtain ⟨k, hw⟩ := hw
  have hbody : s ++ List.replicate k '/' ≠ [] ∧ '\n' ∉ s ++ List.replicate k '/' := by
    refine ⟨fun h => hne (List.append_eq_nil_iff.mp h).1, fun h => ?_⟩
    rcases List.mem_append.mp h with h | h
    · exact hnl h
    · exact absurd (List.eq_of_mem_replicate h) (by decide)
  refine ⟨s ++ List.replicate k '/', ?_⟩
  rcases hw with rfl | rfl
  · exact ident_eq_self hbody.1 hbody.2
  · rw [← List.append_assoc]
    simp only [ident, List.getLast?_concat, if_true, List.dropLast_concat]
    exact if_pos hbody

theorem stripTrailingSlash_some {i leaf : Text} (h : stripTrailingSlash i = some leaf) (hne : i ≠ []) :
    leaf ≠ [] ∧ leaf.getLast? ≠ some '/' ∧ ∃ k, i = leaf ++ List.replicate k '/' := by
  unfold stripTrailingSlash at h
  split at h
  · simp only at h
    split at h
    · cases h
    rename_i hstripped
    cases h
    refine ⟨hstripped, ?_, (i.reverse.takeWhile (· = '/')).length, ?_⟩
    · rw [List.getLast?_reverse]
      intro hhead
      have hnot := List.head?_dropWhile_not (fun c => decide (c = '/')) i.reverse
      rw [hhead] at hnot
      exact absurd hnot (by decide)
    · have hslashes : i.reverse.takeWhile (· = '/') = List.replicate (i.reverse.takeWhile (· = '/')).length '/' :=
        List.eq_replicate_iff.mpr ⟨rfl, fun c hc => by simpa using List.all_eq_true.mp List.all_takeWhile c hc⟩
      have hparts := congrArg List.reverse (List.takeWhile_append_dropWhile (p := (· = '/')) (l := i.reverse))
      rw [List.reverse_append, List.reverse_reverse, hslashes, List.reverse_replicate] at hparts
      exact hparts.symm
  · cases h
    rename_i hlast
    exact ⟨hne, hlast, 0, by simp⟩

/-- What an identifier leaves of its text. -/
theorem leaf_of_ident {s i leaf : Text} (hi : ident s = some i) (hleaf : stripTrailingSlash i = some leaf) :
    leaf ≠ [] ∧ '\n' ∉ leaf ∧ leaf.getLast? ≠ some '/' ∧ ∃ w, Trailing w ∧ s = leaf ++ w := by
  obtain ⟨hne, hnl, hs⟩ := ident_some hi
  obtain ⟨hleafne, hlast, k, rfl⟩ := stripTrailingSlash_some hleaf hne
  refine ⟨hleafne, fun h => hnl (List.mem_append_left _ h), hlast, ?_⟩
  rcases hs with rfl | rfl
  · exact ⟨_, ⟨k, Or.inl rfl⟩, rfl⟩
  · exact ⟨_, ⟨k, Or.inr rfl⟩, List.append_assoc _ _ _⟩

/-- The segments of a text with something behind it: only the last one changes. -/
theorem split_append_trailing (s w : Text) : ∃ init last, split s = init ++ [last] ∧ split (s ++ w) = init ++ split (last ++ w) := by
  induction hs : split s generalizing s with
  | nil => exact absurd hs (split_ne_nil s)
  | cons segment rest ih =>
    by_cases hrest : rest = []
    · subst hrest
      have hjoin := join_split s
      rw [hs, join_singleton] at hjoin
      exact ⟨[], segment, rfl, by rw [hjoin]; rfl⟩
    · have hslash : ∀ t ∈ segment :: rest, '/' ∉ t := fun t ht => slash_of_mem_split (hs ▸ ht)
      have hsplit : split (join rest) = rest := split_join hrest fun t ht => hslash t (List.mem_cons_of_mem _ ht)
      obtain ⟨init, last, hinit, htail⟩ := ih (join rest) hsplit
      have hjoin := join_split s
      rw [hs, join_cons segment hrest] at hjoin
      refine ⟨segment :: init, last, by rw [hinit, List.cons_append], ?_⟩
      rw [← hjoin, List.append_assoc, List.cons_append, split_marker (hslash segment List.mem_cons_self), htail,
        List.cons_append]

theorem ident_of_last {init : List Text} {last s i : Text} (hlast : '\n' ∉ last) (hs : s = join (init ++ [last]))
    (h : ident s = some i) : s = i := by
  obtain ⟨-, -, hs' | hs'⟩ := ident_some h
  · exact hs'
  · have hend : s.getLast? = some '\n' := by rw [hs', List.getLast?_concat]
    rw [hs] at hend
    by_cases hinit : init = []
    · subst hinit
      exact absurd (List.mem_of_getLast? (by simpa using hend)) hlast
    · rw [join_append hinit (List.cons_ne_nil _ _), join_singleton, List.getLast?_append, List.getLast?_cons] at hend
      cases hl : last.getLast? with
      | none =>
        rw [hl] at hend
        simp at hend
      | some c =>
        rw [hl] at hend
        obtain rfl : c = '\n' := by simpa using hend
        exact absurd (List.mem_of_getLast? hl) hlast

/-- A reading stays one when slashes, or slashes and a newline, are put behind its identifier. -/
theorem Reading.trailing {front coll : List Text} {kind : Kind} {i s w : Text} (hfront : ∀ segment ∈ front, '/' ∉ segment)
    (hnl : '\n' ∉ s) (hw : Trailing w) (h : Reading (front ++ split s) coll kind i) :
    ∃ i', Reading (front ++ split (s ++ w)) coll kind i' := by
  obtain ⟨rest, hrest, hne, hempty, htyped⟩ := h
  obtain ⟨init, last, hinit, htail⟩ := split_append_trailing s w
  have hlast : '\n' ∉ last := fun hm => hnl (mem_of_mem_split (hinit ▸ List.mem_append_right _ List.mem_cons_self) hm)
  have hslash : ∀ segment ∈ rest, '/' ∉ segment := fun segment hs => by
    rcases List.mem_append.mp (show segment ∈ front ++ split s from hrest ▸ List.mem_append_right _ hs) with hs | hs
    · exact hfront segment hs
    · exact slash_of_mem_split hs
  match rest, typed_length htyped with
  | marker :: leaf :: more, _ =>
    -- the identifier ends in the last segment of `s`
    obtain ⟨mid, last', hmid⟩ : ∃ mid last', leaf :: more = mid ++ [last'] :=
      ⟨(leaf :: more).dropLast, _, (List.dropLast_append_getLast (List.cons_ne_nil _ _)).symm⟩
    rw [hmid] at hrest htyped hslash
    rw [hinit, ← List.append_assoc, ← List.cons_append, ← List.append_assoc] at hrest
    obtain ⟨hbefore, hsame⟩ := List.append_inj' hrest rfl
    obtain rfl := (List.cons.inj hsame).1
    have hsplit : split (join (mid ++ [last])) = mid ++ [last] :=
      split_join (by simp) fun segment hs => hslash segment (List.mem_cons_of_mem _ hs)
    obtain ⟨mid', last', hmid', htail'⟩ := split_append_trailing (join (mid ++ [last])) w
    obtain ⟨rfl, hsame'⟩ := List.append_inj' (hsplit.symm.trans hmid') rfl
    obtain rfl := (List.cons.inj hsame').1
    rw [← hsplit, typed_cons] at htyped
    obtain ⟨kind', hkind, htyped⟩ := Option.bind_eq_some_iff.mp htyped
    obtain ⟨i', hi, hr⟩ := Option.map_eq_some_iff.mp htyped
    obtain ⟨rfl, rfl⟩ := Prod.mk.inj hr
    have hself := ident_of_last hlast rfl hi
    obtain ⟨hine, hinl, -⟩ := ident_some hi
    obtain ⟨i'', hi''⟩ := ident_trailing (hself ▸ hine) (hself ▸ hinl) hw
    refine ⟨i'', marker :: split (join (mid ++ [last]) ++ w), ?_, hne, hempty, ?_⟩
    · rw [htail, ← List.append_assoc, hbefore, htail', List.append_assoc, List.cons_append]
    · rw [typed_cons, hkind, Option.bind_some, hi'', Option.map_some]

/-! ### Rebuilding -/

theorem body_unique {v v' body body' : Text} (hv : '/' ∉ v) (hv' : '/' ∉ v')
    (h : scheme ++ v ++ '/' :: body = scheme ++ v' ++ '/' :: body') : v = v' ∧ body = body' := by
  rw [List.append_assoc, List.append_assoc] at h
  have hsplit := congrArg split (List.append_cancel_left h)
  rw [split_marker hv, split_marker hv'] at hsplit
  obtain ⟨rfl, hbody⟩ := List.cons.inj hsplit
  exact ⟨rfl, split_inj hbody⟩

theorem not_vault {v v' body : Text} (hv : '/' ∉ v) (h : scheme ++ v = scheme ++ v' ++ '/' :: body) : False := by
  rw [List.append_assoc] at h
  rw [List.append_cancel_left h] at hv
  exact hv (by simp)

theorem SlashedLeaf.parts {v body : Text} (hv : '/' ∉ v) (h : SlashedLeaf (scheme ++ v ++ '/' :: body)) :
    ∃ s i leaf, ident s = some i ∧ stripTrailingSlash i = some leaf ∧ '/' ∈ leaf ∧
      (split body = "doc".toList :: split s ∨
        ∃ c, split body = "coll".toList :: (c ++ "doc".toList :: split s) ∧ Longest (c ++ "doc".toList :: split s) c .doc i) := by
  obtain ⟨v', s, i, leaf, hv', hi, hleaf, hslash, huri | ⟨c, huri, hlongest⟩⟩ := h
  · obtain ⟨-, rfl⟩ := body_unique hv hv' huri
    exact ⟨s, i, leaf, hi, hleaf, hslash, Or.inl (split_marker (by decide) s)⟩
  · obtain ⟨-, rfl⟩ := body_unique hv hv' huri
    refine ⟨s, i, leaf, hi, hleaf, hslash, Or.inr ⟨split c, ?_, hlongest⟩⟩
    rw [split_marker (by decide), split_append, split_marker (by decide)]

theorem NewlineSlash.parts {v body : Text} (hv : '/' ∉ v) (h : NewlineSlash (scheme ++ v ++ '/' :: body)) :
    ∃ c marker kind i, c ≠ [] ∧ [] ∉ c ∧ (∀ segment ∈ c, '/' ∉ segment) ∧ typeOf marker = some kind ∧ i ≠ [] ∧ '\n' ∉ i ∧
      split body = "coll".toList :: (c ++ marker :: split (i ++ ['\n'])) ++ [[]] := by
  obtain ⟨v', c, marker, kind, i, hv', hempty, hkind, hne, hnl, huri⟩ := h
  obtain ⟨-, rfl⟩ := body_unique hv hv' huri
  refine ⟨split c, marker, kind, i, split_ne_nil c, hempty, fun segment hs => slash_of_mem_split hs, hkind, hne, hnl, ?_⟩
  rw [split_marker (by decide), split_append, split_marker (typeOf_marker hkind).1,
    show i ++ ['\n', '/'] = (i ++ ['\n']) ++ '/' :: [] by simp, split_append]
  simp [split]

theorem typeOf_cases {marker : Text} {kind : Kind} (h : typeOf marker = some kind) :
    (kind = .doc ∧ marker = "doc".toList) ∨ (kind = .table ∧ marker = "table".toList) ∨
      (kind = .file ∧ marker = "file".toList) := by
  unfold typeOf at h
  split at h
  · exact Or.inl ⟨(Option.some.inj h).symm, by assumption⟩
  split at h
  · exact Or.inr (Or.inl ⟨(Option.some.inj h).symm, by assumption⟩)
  split at h
  · exact Or.inr (Or.inr ⟨(Option.some.inj h).symm, by assumption⟩)
  · cases h

theorem join_ne_nil {c : List Text} (hne : c ≠ []) (hempty : [] ∉ c) : join c ≠ [] := by
  cases c with
  | nil => exact absurd rfl hne
  | cons segment c =>
    have hsegment : segment ≠ [] := fun h => hempty (h ▸ List.mem_cons_self)
    by_cases hc : c = []
    · simpa [hc] using hsegment
    · rw [join_cons segment hc]
      exact fun h => hsegment (List.append_eq_nil_iff.mp h).1

theorem last_slash {s : Text} (h : '/' ∈ s) : ∃ front base, s = front ++ '/' :: base ∧ '/' ∉ base := by
  obtain ⟨a, b, hab, ha⟩ := List.eq_append_cons_of_mem (List.mem_reverse.mpr h)
  refine ⟨b.reverse, a.reverse, ?_, fun hm => ha (List.mem_reverse.mp hm)⟩
  rw [← List.reverse_reverse s, hab]
  simp

section InColl
variable {v marker s i leaf : Text} {c : List Text} {kind : Kind} (hv : v ≠ []) (hslash : '/' ∉ v)
  (hc : ∀ segment ∈ c, '/' ∉ segment) (hkind : typeOf marker = some kind) (hident : ident s = some i)
  (hlongest : Longest (c ++ marker :: split s) c kind i) (hleaf : stripTrailingSlash i = some leaf)
  (hplain : Plain (inColl v (join c) marker s))
include hv hslash hc hkind hident hlongest hleaf hplain

/-- The URI of a leaf parses as the URI that had slashes or a newline behind it. -/
theorem parseUri_again : parseUri (inColl v (join c) marker leaf) =
    some ⟨v, kind, some (if kind = .doc then join c ++ '/' :: leaf else leaf), some (join c)⟩ := by
  obtain ⟨hm, hmp, -⟩ := typeOf_marker hkind
  obtain ⟨hleafne, hnl, hlast, w, hw, rfl⟩ := leaf_of_ident hident hleaf
  obtain ⟨⟨_, _, hne, hempty, _⟩, hmax⟩ := hlongest
  have hbody : Plain ("coll".toList ++ '/' :: (join c ++ '/' :: (marker ++ '/' :: leaf))) := by
    simp only [inColl, plain_append, plain_cons (show '/' ∉ ['\x7b', '\x7d'] by decide)] at hplain ⊢
    tauto
  have hvp : Plain v := by
    simp only [inColl, plain_append] at hplain
    exact hplain.1.2
  have hread : Longest (c ++ marker :: split leaf) c kind leaf := by
    refine ⟨⟨marker :: split leaf, rfl, hne, hempty, ?_⟩, fun c' kind' i' h' => ?_⟩
    · rw [typed_cons, hkind, Option.bind_some, ident_eq_self hleafne hnl, Option.map_some]
    · have hfront : ∀ segment ∈ c ++ [marker], '/' ∉ segment := fun segment hs => by
        rcases List.mem_append.mp hs with hs | hs
        · exact hc segment hs
        · exact List.mem_singleton.mp hs ▸ hm
      rw [← List.singleton_append, ← List.append_assoc] at h'
      obtain ⟨i'', h''⟩ := h'.trailing hfront hnl hw
      rw [List.append_assoc, List.singleton_append] at h''
      exact hmax c' kind' i'' h''
  rw [inColl, parseUri_parts hv hslash ⟨hvp, hbody⟩, split_marker (by decide), split_append, split_marker hm,
    split_join hne hc, parseParts_coll, typedInColl_eq_some_iff.mpr hread]
  simp only [stripTrailingSlash_eq_self hlast, Option.map_some]

omit hv hslash hc hkind hlongest hplain in
theorem not_newlineSlash_inColl : ¬ NewlineSlash (inColl v (join c) marker s) := by
  rintro ⟨v', c', marker', _, i', _, _, _, _, _, huri⟩
  obtain ⟨hine, hinl, hs⟩ := ident_some hident
  have hends : ∃ x y, x ++ s = (y ++ ['\n']) ++ ['/'] :=
    ⟨scheme ++ v ++ '/' :: ("coll".toList ++ '/' :: (join c ++ '/' :: (marker ++ ['/']))),
      scheme ++ v' ++ '/' :: ("coll".toList ++ '/' :: (c' ++ '/' :: (marker' ++ '/' :: i'))), by simpa [inColl] using huri⟩
  obtain ⟨x, y, hxy⟩ := hends
  rcases hs with hs | hs
  · obtain ⟨front, last, rfl⟩ : ∃ front last, i = front ++ [last] :=
      ⟨i.dropLast, _, (List.dropLast_append_getLast hine).symm⟩
    rw [hs, ← List.append_assoc] at hxy
    obtain ⟨hfront, hlast⟩ := List.append_inj' hxy rfl
    obtain rfl := (List.cons.inj hlast).1
    by_cases hnil : front = []
    · subst hnil
      cases hleaf
    · obtain ⟨front', last', rfl⟩ : ∃ front' last', front = front' ++ [last'] :=
        ⟨front.dropLast, _, (List.dropLast_append_getLast hnil).symm⟩
      rw [← List.append_assoc] at hfront
      obtain ⟨-, hnewline⟩ := List.append_inj' hfront rfl
      obtain rfl := (List.cons.inj hnewline).1
      exact hinl (by simp)
  · rw [hs, ← List.append_assoc] at hxy
    exact absurd (List.cons.inj (List.append_inj' hxy rfl).2).1 (by decide)

omit hv hident hplain in
/-- The leaf that a slashed reading names is the leaf of the only longest reading. -/
theorem slashedLeaf_inColl
    (h : SlashedLeaf (inColl v (join c) marker s)) : kind = .doc ∧ '/' ∈ leaf := by
  obtain ⟨s', i', leaf', -, hleaf', hin, hroot | ⟨c', hcoll, hlongest'⟩⟩ := SlashedLeaf.parts hslash h
  · rw [split_marker (by decide)] at hroot
    exact absurd (List.cons.inj hroot).1 (by decide)
  · obtain ⟨_, _, hne, _, _⟩ := hlongest.1
    rw [split_marker (by decide), split_append, split_join hne hc, split_marker (typeOf_marker hkind).1] at hcoll
    rw [← (List.cons.inj hcoll).2] at hlongest'
    obtain ⟨rfl, rfl, rfl⟩ := hlongest.1.unique hlongest'.1
      (Nat.le_antisymm (hlongest'.2 _ _ _ hlongest.1) (hlongest.2 _ _ _ hlongest'.1))
    obtain rfl := Option.some.inj (hleaf.symm.trans hleaf')
    exact ⟨rfl, hin⟩

/-- A leaf with a slash moves the collection when its path is split again. -/
theorem parseUri_slashed (hin : '/' ∈ leaf) :
    parseUri (docUri v (join c ++ '/' :: leaf)) ≠ some ⟨v, .doc, some (join c ++ '/' :: leaf), some (join c)⟩ := by
  intro hparse
  obtain ⟨hleafne, hnl, hlast, w, hw, rfl⟩ := leaf_of_ident hident hleaf
  obtain ⟨⟨_, _, hne, hempty, _⟩, hmax⟩ := hlongest
  obtain ⟨front, base, rfl, hbase⟩ := last_slash hin
  have hvp : Plain v ∧ Plain (join c) ∧ Plain front ∧ Plain base := by
    simp only [inColl, plain_append, plain_cons (show '/' ∉ ['\x7b', '\x7d'] by decide)] at hplain
    tauto
  have hbody : Plain ("coll".toList ++ '/' :: (join c ++ '/' :: front ++ '/' :: ("doc".toList ++ '/' :: base))) := by
    simp only [plain_append, plain_cons (show '/' ∉ ['\x7b', '\x7d'] by decide)]
    exact ⟨by unfold Plain; decide, ⟨hvp.2.1, hvp.2.2.1⟩, by unfold Plain; decide, hvp.2.2.2⟩
  rw [show join c ++ '/' :: (front ++ '/' :: base) = (join c ++ '/' :: front) ++ '/' :: base by simp,
    docUri_inColl v _ hbase, inColl, parseUri_parts hv hslash ⟨hvp.1, hbody⟩, split_marker (by decide), split_append,
    split_append, split_join hne hc, split_marker (by decide), split_of_notMem hbase, parseParts_coll] at hparse
  cases htyped : typedInColl (c ++ split front ++ "doc".toList :: [base]) with
  | none =>
    rw [htyped] at hparse
    obtain ⟨c', -, hr⟩ := Option.map_eq_some_iff.mp hparse
    cases congrArg ParsedUri.kind hr
  | some found =>
    obtain ⟨c', kind', i'⟩ := found
    rw [htyped] at hparse
    obtain ⟨leaf', -, hr⟩ := Option.map_eq_some_iff.mp hparse
    obtain ⟨rest, hrest, hne', -, hmarker⟩ := typedInColl_reading htyped
    have hsegments : ∀ segment ∈ c' ++ rest, '/' ∉ segment := fun segment hs => by
      rw [← hrest, List.mem_append, List.mem_append] at hs
      rcases hs with (hs | hs) | hs
      · exact hc segment hs
      · exact slash_of_mem_split hs
      · rcases List.mem_cons.mp hs with rfl | hs
        · decide
        · exact List.mem_singleton.mp hs ▸ hbase
    have hsame : c' = c := by
      have hjoin : join c' = join c := Option.some.inj (congrArg ParsedUri.collPath hr)
      rw [← split_join hne' fun segment hs => hsegments segment (List.mem_append_left _ hs), hjoin, split_join hne hc]
    subst hsame
    -- so the old leaf began with a type, and the parser would have read on behind it
    obtain ⟨marker', t', rfl, hkind', -⟩ :=
      typed_some (fun segment hs => hsegments segment (List.mem_append_right _ hs)) hmarker
    rw [List.append_assoc, List.append_cancel_left_eq] at hrest
    obtain ⟨t, more, hfront⟩ := List.exists_cons_of_ne_nil (split_ne_nil front)
    rw [hfront, List.cons_append] at hrest
    obtain rfl := (List.cons.inj hrest).1
    have hleafsplit : front ++ '/' :: base = t ++ '/' :: join (more ++ [base]) := by
      rw [← join_split (front ++ '/' :: base), split_append, hfront, split_of_notMem hbase, List.cons_append,
        join_cons t (by simp)]
    rw [hleafsplit] at hleafne hnl hlast hmax
    have ht0 : join (more ++ [base]) ≠ [] := fun h => hlast (by rw [h, List.getLast?_concat])
    obtain ⟨i'', hi''⟩ := ident_trailing ht0 (fun hm => hnl (by simp [hm])) hw
    have hlonger : Reading (c' ++ marker :: split (t ++ '/' :: join (more ++ [base]) ++ w)) (c' ++ [marker]) kind' i'' := by
      refine ⟨t :: split (join (more ++ [base]) ++ w), ?_, by simp, ?_, ?_⟩
      · rw [List.append_assoc t, List.cons_append, split_marker (typeOf_marker hkind').1, List.append_assoc,
          List.singleton_append]
      · rw [List.mem_append, not_or]
        refine ⟨hempty, fun hm => ?_⟩
        rw [← List.mem_singleton.mp hm] at hkind
        cases hkind
      · rw [typed_cons, hkind', Option.bind_some, hi'', Option.map_some]
    have hle := hmax _ _ _ hlonger
    rw [List.length_append, List.length_singleton] at hle
    omega

end InColl

/-- What the builders make of a parsed leaf in a collection. -/
theorem rebuild_inColl {v leaf : Text} {c : List Text} {marker : Text} {kind : Kind} (hkind : typeOf marker = some kind)
    (hc : join c ≠ []) (hleaf : kind ≠ .doc ∨ '/' ∉ leaf) :
    rebuild ⟨v, kind, some (if kind = .doc then join c ++ '/' :: leaf else leaf), some (join c)⟩ =
      .ok (inColl v (join c) marker leaf) := by
  rcases typeOf_cases hkind with ⟨rfl, rfl⟩ | ⟨rfl, rfl⟩ | ⟨rfl, rfl⟩
  · exact congrArg Except.ok (docUri_inColl v (join c) (hleaf.resolve_left (fun h => h rfl)))
  · exact congrArg Except.ok (leafUri_some "table" v leaf hc)
  · exact congrArg Except.ok (leafUri_some "file" v leaf hc)

theorem rebuild_atRoot {v leaf marker : Text} {kind : Kind} (hkind : typeOf marker = some kind)
    (hleaf : kind ≠ .doc ∨ '/' ∉ leaf) : rebuild ⟨v, kind, some leaf, none⟩ = .ok (atRoot v marker leaf) := by
  rcases typeOf_cases hkind with ⟨rfl, rfl⟩ | ⟨rfl, rfl⟩ | ⟨rfl, rfl⟩
  · exact congrArg Except.ok (docUri_root v (hleaf.resolve_left (fun h => h rfl)))
  · exact congrArg Except.ok (leafUri_root "table" v leaf (Or.inl rfl))
  · exact congrArg Except.ok (leafUri_root "file" v leaf (Or.inl rfl))

theorem parseUri_atRoot_again {v marker s i leaf : Text} {kind : Kind} (hv : v ≠ []) (hslash : '/' ∉ v)
    (hkind : typeOf marker = some kind) (hident : ident s = some i) (hleaf : stripTrailingSlash i = some leaf)
    (hplain : Plain (atRoot v marker s)) : parseUri (atRoot v marker leaf) = some ⟨v, kind, some leaf, none⟩ := by
  obtain ⟨hm, hmp, -⟩ := typeOf_marker hkind
  obtain ⟨hleafne, hnl, hlast, w, -, rfl⟩ := leaf_of_ident hident hleaf
  simp only [atRoot, plain_append, plain_cons (show '/' ∉ ['\x7b', '\x7d'] by decide)] at hplain
  have hbody : Plain (marker ++ '/' :: leaf) :=
    plain_append.mpr ⟨hmp, (plain_cons (by decide)).mpr hplain.2.2.1⟩
  rw [atRoot, parseUri_parts hv hslash ⟨hplain.1.2, hbody⟩, split_marker hm, parseParts_typed hkind,
    ident_eq_self hleafne hnl, Option.bind_some, stripTrailingSlash_eq_self hlast, Option.map_some]

theorem collOnly_some {segments c : List Text} (h : collOnly segments = some c) :
    c ≠ [] ∧ [] ∉ c ∧ (segments = c ∨ segments = c ++ [[]]) := by
  rw [collOnly] at h
  obtain ⟨hok, hcoll⟩ := Option.ite_none_right_eq_some.mp h
  rw [Option.some.inj hcoll] at hok
  refine ⟨hok.1, hok.2, ?_⟩
  by_cases hlast : segments.getLast? = some []
  · rw [if_pos hlast] at hcoll
    rw [← Option.some.inj hcoll]
    exact Or.inr (List.dropLast_append_getLast? _ hlast).symm
  · rw [if_neg hlast] at hcoll
    exact Or.inl (Option.some.inj hcoll)

/-- A collection URI is found again unless a newline and a slash end it. -/
theorem rebuild_coll_iff {v s : Text} {c : List Text} (hv : v ≠ []) (hslash : '/' ∉ v)
    (hnone : ∀ c' kind i, ¬ Reading (split s) c' kind i) (hcoll : collOnly (split s) = some c)
    (hplain : Plain (scheme ++ v ++ '/' :: ("coll".toList ++ '/' :: s))) :
    (collUri v (join c)).toOption.bind parseUri = some ⟨v, .coll, some (join c), some (join c)⟩ ↔
      ¬ NewlineSlash (scheme ++ v ++ '/' :: ("coll".toList ++ '/' :: s)) := by
  obtain ⟨hne, hempty, hsegments⟩ := collOnly_some hcoll
  have hc : ∀ segment ∈ c, '/' ∉ segment := fun segment hs => by
    rcases hsegments with h | h
    · exact slash_of_mem_split (h ▸ hs)
    · exact slash_of_mem_split (h ▸ List.mem_append_left _ hs)
  have hsplit : split ("coll".toList ++ '/' :: s) = "coll".toList :: split s := split_marker (by decide) s
  have hagain : collOnly c = some c := by
    rw [collOnly, if_neg fun h => hempty (List.mem_of_getLast? h)]
    exact if_pos ⟨hne, hempty⟩
  have hplain' : Plain v ∧ Plain ("coll".toList ++ '/' :: join c) := by
    have hcs {d : Char} (hd : d ∈ join c) : d ∈ s := by
      have hjoin := join_split s
      rcases hsegments with h | h
      · rwa [← hjoin, h]
      · rw [h, join_append hne (List.cons_ne_nil _ _)] at hjoin
        rw [← hjoin]
        exact List.mem_append_left _ hd
    simp only [plain_append, plain_cons (show '/' ∉ ['\x7b', '\x7d'] by decide)] at hplain ⊢
    exact ⟨hplain.1.2, hplain.2.1, fun hm => hplain.2.2.1 (hcs hm), fun hm => hplain.2.2.2 (hcs hm)⟩
  have hparse : (collUri v (join c)).toOption.bind parseUri = some ⟨v, .coll, some (join c), some (join c)⟩ ↔
      ∀ c' kind i, ¬ Reading c c' kind i := by
    rw [collUri_eq v (join_ne_nil hne hempty), Except.toOption, Option.bind_some, parseUri_parts hv hslash hplain',
      split_marker (by decide), split_join hne hc, parseParts_coll, ← typedInColl_eq_none_iff]
    cases htyped : typedInColl c with
    | none => simp only [hagain, Option.map_some]
    | some found =>
      obtain ⟨c', kind, i⟩ := found
      refine iff_of_false (fun h => ?_) (by simp)
      obtain ⟨leaf, -, hr⟩ := Option.map_eq_some_iff.mp h
      obtain ⟨rest, rfl, -, -, htyped'⟩ := typedInColl_reading htyped
      obtain ⟨marker, t, rfl, hkind, -⟩ :=
        typed_some (fun segment hs => hc segment (List.mem_append_right _ hs)) htyped'
      have hcollkind : kind = .coll := congrArg ParsedUri.kind hr
      rcases typeOf_cases hkind with ⟨h, -⟩ | ⟨h, -⟩ | ⟨h, -⟩ <;> rw [hcollkind] at h <;> cases h
  rw [hparse]
  constructor
  · intro hreading hnewline
    obtain ⟨c', marker, kind, i, hne', hempty', -, hkind, hine, hinl, hs⟩ := NewlineSlash.parts hslash hnewline
    rw [hsplit, List.cons_append] at hs
    have hs' := (List.cons.inj hs).2
    rcases hsegments with h | h
    · exact hempty (h ▸ hs' ▸ by simp)
    · rw [h] at hs'
      refine hreading c' kind i ⟨marker :: split (i ++ ['\n']), (List.append_inj' hs' rfl).1, hne', hempty', ?_⟩
      rw [typed_cons, hkind, Option.bind_some]
      simp [ident, hine, hinl]
  · rintro hnewline c' kind i ⟨rest, rfl, hne', hempty', htyped⟩
    obtain ⟨marker, t, rfl, hkind, hident⟩ :=
      typed_some (fun segment hs => hc segment (List.mem_append_right _ hs)) htyped
    rcases hsegments with h | h
    · exact hnone c' kind i ⟨_, h, hne', hempty', htyped⟩
    obtain ⟨hine, hinl, ht | ht⟩ := ident_some hident
    · -- without a newline the slash belongs to the identifier
      obtain ⟨i', hi'⟩ := ident_trailing hine hinl ⟨1, Or.inl rfl⟩
      refine hnone c' kind i' ⟨marker :: split (t ++ '/' :: []), ?_, hne', hempty', ?_⟩
      · rw [h, split_append, List.append_assoc, List.cons_append]
        rfl
      · rw [typed_cons, hkind, Option.bind_some, ht]
        simpa using hi'
    · refine hnewline ⟨v, join c', marker, kind, i, hslash, ?_, hkind, hine, hinl, ?_⟩
      · rwa [split_join hne' fun segment hs => hc segment (List.mem_append_left _ hs)]
      · have hsame : s = join c' ++ '/' :: (marker ++ '/' :: (i ++ ['\n', '/'])) := by
          apply split_inj
          rw [h, ht, split_append, split_join hne' fun segment hs => hc segment (List.mem_append_left _ hs),
            split_marker (typeOf_marker hkind).1, show i ++ ['\n', '/'] = (i ++ ['\n']) ++ '/' :: [] by simp, split_append]
          simp [split]
        rw [hsame, inColl]

theorem rebuild_inColl_iff {v marker s i leaf : Text} {c : List Text} {kind : Kind} (hv : v ≠ []) (hslash : '/' ∉ v)
    (hc : ∀ segment ∈ c, '/' ∉ segment) (hkind : typeOf marker = some kind) (hident : ident s = some i)
    (hlongest : Longest (c ++ marker :: split s) c kind i) (hleaf : stripTrailingSlash i = some leaf)
    (hplain : Plain (inColl v (join c) marker s)) :
    (rebuild ⟨v, kind, some (if kind = .doc then join c ++ '/' :: leaf else leaf), some (join c)⟩).toOption.bind
        parseUri = some ⟨v, kind, some (if kind = .doc then join c ++ '/' :: leaf else leaf), some (join c)⟩ ↔
      ¬ SlashedLeaf (inColl v (join c) marker s) ∧ ¬ NewlineSlash (inColl v (join c) marker s) := by
  obtain ⟨_, _, hne, hempty, _⟩ := hlongest.1
  by_cases hslashed : kind = .doc ∧ '/' ∈ leaf
  · obtain ⟨rfl, hin⟩ := hslashed
    refine iff_of_false (parseUri_slashed hv hslash hc hkind hident hlongest hleaf hplain hin) fun h => h.1 ?_
    rcases typeOf_cases hkind with ⟨-, rfl⟩ | ⟨h, -⟩ | ⟨h, -⟩
    · refine ⟨v, s, i, leaf, hslash, hident, hleaf, hin, Or.inr ⟨join c, rfl, ?_⟩⟩
      rwa [split_join hne hc]
    · cases h
    · cases h
  · have hbuilt := @rebuild_inColl v leaf c marker kind hkind (join_ne_nil hne hempty)
      ((not_and_or.mp hslashed).imp_left fun h => h)
    rw [hbuilt]
    refine iff_of_true (parseUri_again hv hslash hc hkind hident hlongest hleaf hplain) ⟨fun h => hslashed ?_, ?_⟩
    · exact slashedLeaf_inColl hslash hc hkind hlongest hleaf h
    · exact not_newlineSlash_inColl hident hleaf

theorem rebuild_atRoot_iff {v marker s i leaf : Text} {kind : Kind} (hv : v ≠ []) (hslash : '/' ∉ v)
    (hkind : typeOf marker = some kind) (hident : ident s = some i) (hleaf : stripTrailingSlash i = some leaf)
    (hplain : Plain (atRoot v marker s)) :
    (rebuild ⟨v, kind, some leaf, none⟩).toOption.bind parseUri = some ⟨v, kind, some leaf, none⟩ ↔
      ¬ SlashedLeaf (atRoot v marker s) ∧ ¬ NewlineSlash (atRoot v marker s) := by
  obtain ⟨hm, -, -⟩ := typeOf_marker hkind
  by_cases hslashed : kind = .doc ∧ '/' ∈ leaf
  · obtain ⟨rfl, hin⟩ := hslashed
    refine iff_of_false (fun h => ?_) fun h => h.1 ?_
    · obtain ⟨front, base, rfl, hbase⟩ := last_slash hin
      have hparse : parseUri (docUri v (front ++ '/' :: base)) = some ⟨v, .doc, some (front ++ '/' :: base), none⟩ := h
      rw [docUri_inColl v front hbase] at hparse
      obtain ⟨hp, -⟩ := accepts_of_parseUri hparse
      simp only [inColl, plain_append, plain_cons (show '/' ∉ ['\x7b', '\x7d'] by decide)] at hp
      rw [inColl, parseUri_parts hv hslash ⟨hp.1.2, by
        simp only [plain_append, plain_cons (show '/' ∉ ['\x7b', '\x7d'] by decide)]
        exact hp.2⟩, split_marker (by decide), parseParts_coll] at hparse
      split at hparse
      · obtain ⟨_, -, hr⟩ := Option.map_eq_some_iff.mp hparse
        cases congrArg ParsedUri.collPath hr
      · obtain ⟨_, -, hr⟩ := Option.map_eq_some_iff.mp hparse
        cases congrArg ParsedUri.collPath hr
    · rcases typeOf_cases hkind with ⟨-, rfl⟩ | ⟨h, -⟩ | ⟨h, -⟩
      · exact ⟨v, s, i, leaf, hslash, hident, hleaf, hin, Or.inl rfl⟩
      · cases h
      · cases h
  · rw [rebuild_atRoot hkind ((not_and_or.mp hslashed).imp_left fun h => h)]
    refine iff_of_true (parseUri_atRoot_again hv hslash hkind hident hleaf hplain) ⟨fun h => hslashed ?_, fun h => ?_⟩
    · obtain ⟨s', i', leaf', hident', hleaf', hin, hroot | ⟨c, hcoll, -⟩⟩ := SlashedLeaf.parts hslash h
      · rw [split_marker hm] at hroot
        obtain ⟨rfl, hs⟩ := List.cons.inj hroot
        obtain rfl := split_inj hs
        obtain rfl := Option.some.inj (hident.symm.trans hident')
        obtain rfl := Option.some.inj (hleaf.symm.trans hleaf')
        exact ⟨(Option.some.inj hkind).symm, hin⟩
      · rw [split_marker hm] at hcoll
        rw [(List.cons.inj hcoll).1] at hkind
        cases hkind
    · obtain ⟨c, marker', _, i', -, -, -, -, -, -, hcoll⟩ := NewlineSlash.parts hslash h
      rw [split_marker hm, List.cons_append] at hcoll
      rw [(List.cons.inj hcoll).1] at hkind
      cases hkind

/-- An accepted URI is built again to one that parses alike, unless its leaf has a slash or a newline and a
slash end it. -/
theorem rebuild_iff {uri : Text} {r : ParsedUri} (h : parseUri uri = some r) :
    (rebuild r).toOption.bind parseUri = some r ↔ ¬ SlashedLeaf uri ∧ ¬ NewlineSlash uri := by
  obtain ⟨hplain, haccepts⟩ := accepts_of_parseUri h
  cases haccepts with
  | typedInColl hv hslash hc hkind hident hlongest hleaf =>
    exact rebuild_inColl_iff hv hslash hc hkind hident hlongest hleaf hplain
  | collOnly hv hslash hnone hcoll =>
    rw [and_iff_right]
    · exact rebuild_coll_iff hv hslash hnone hcoll hplain
    · intro hslashed
      obtain ⟨s', i', leaf', -, -, -, hroot | ⟨c, hcoll', hlongest⟩⟩ := SlashedLeaf.parts hslash hslashed
      · rw [split_marker (by decide)] at hroot
        exact absurd (List.cons.inj hroot).1 (by decide)
      · rw [split_marker (by decide)] at hcoll'
        exact hnone _ _ _ ((List.cons.inj hcoll').2 ▸ hlongest.1)
  | typedRoot hv hslash hkind hident hleaf => exact rebuild_atRoot_iff hv hslash hkind hident hleaf hplain
  | @vaultOnly v tail hv hslash htail =>
    have hvp : Plain v := (plain_append.mp (plain_append.mp hplain).1).2
    refine iff_of_true ((parseUri_vault hv hslash hvp).trans rfl) ?_
    have hheads {body : Text} (hbody : body = [] ∨ body = ['\n']) {marker : Text} {rest : List Text}
        (hmarker : marker ∈ ["doc".toList, "coll".toList]) : split body ≠ marker :: rest := by
      have hnot : ∀ marker ∈ ["doc".toList, "coll".toList], marker ≠ [] ∧ marker ≠ ['\n'] := by decide
      rcases hbody with rfl | rfl
      · exact fun h => (hnot marker hmarker).1 (List.cons.inj h).1.symm
      · rw [split_of_notMem (by decide)]
        exact fun h => (hnot marker hmarker).2 (List.cons.inj h).1.symm
    have hslashes {body : Text} (hbody : body = [] ∨ body = ['\n']) :
        ¬ SlashedLeaf (scheme ++ v ++ '/' :: body) ∧ ¬ NewlineSlash (scheme ++ v ++ '/' :: body) := by
      constructor
      · intro hslashed
        obtain ⟨_, _, _, -, -, -, hroot | ⟨_, hcoll, -⟩⟩ := SlashedLeaf.parts hslash hslashed
        · exact hheads hbody (by simp) hroot
        · exact hheads hbody (by simp) hcoll
      · intro hnewline
        obtain ⟨_, _, _, _, -, -, -, -, -, -, hcoll⟩ := NewlineSlash.parts hslash hnewline
        exact hheads hbody (by simp) hcoll
    simp only [List.mem_cons, List.not_mem_nil, or_false] at htail
    rcases htail with rfl | rfl | rfl
    · rw [List.append_nil]
      constructor
      · rintro ⟨_, _, _, _, -, -, -, -, huri | ⟨_, huri, -⟩⟩
        · exact not_vault hslash huri
        · exact not_vault hslash huri
      · rintro ⟨_, _, _, _, _, -, -, -, -, -, huri⟩
        exact not_vault hslash huri
    · exact hslashes (Or.inl rfl)
    · exact hslashes (Or.inr rfl)

/-! ### Both orders -/

/-- Building then parsing fails for braces only, parsing then building for a slashed document leaf (and behind a
newline with a slash). -/
theorem uri_round_trip_iff (u : Unicode) :
    (∀ (v c : Text) (path : Option Text) (allowEmpty : Bool), '/' ∉ v → Plain v →
      normalizeCollectionPath path allowEmpty = .ok c → (RoundTrips u v c ↔ v ≠ [] ∧ Plain c)) ∧
    ∀ (uri : Text) (r : ParsedUri), parseUri uri = some r →
      ((rebuild r).toOption.bind parseUri = some r ↔ ¬ SlashedLeaf uri ∧ ¬ NewlineSlash uri) :=
  ⟨fun _ _ _ _ hslash hplain hc => roundTrips_iff u hslash hplain hc, fun _ _ h => rebuild_iff h⟩

/-- ASCII alone. -/
def asciiOnly : Unicode where
  lower := PyText.lower
  isWord c := c.isAlphanum || c == '_'
  word_ascii _ _ := rfl

theorem uri_round_trip_specs : RoundTrips asciiOnly "eng".toList "specs/api".toList ∧
    ¬ SlashedLeaf "akb://eng/coll/specs/doc/v1.md".toList ∧ ¬ NewlineSlash "akb://eng/coll/specs/doc/v1.md".toList := by
  have hplain : Plain "eng".toList ∧ Plain "specs/api".toList := by unfold Plain; decide
  have hnormal : normalizeCollectionPath (some " /specs/api/".toList) true = .ok "specs/api".toList := by rfl
  have hparse : parseUri "akb://eng/coll/specs/doc/v1.md".toList =
      some ⟨"eng".toList, .doc, some "specs/v1.md".toList, some "specs".toList⟩ := by decide
  have hagain : (rebuild ⟨"eng".toList, .doc, some "specs/v1.md".toList, some "specs".toList⟩).toOption.bind parseUri =
      some ⟨"eng".toList, .doc, some "specs/v1.md".toList, some "specs".toList⟩ := by decide
  obtain ⟨hbuilt, hparsed⟩ := uri_round_trip_iff asciiOnly
  exact ⟨(hbuilt _ _ _ _ (by decide) hplain.1 hnormal).mpr ⟨by decide, hplain.2⟩, (hparsed _ _ hparse).mp hagain⟩

/-- A collection `a{b}` is accepted and its URI is not; `akb://V/doc/specs/api.md` is accepted and built again as
another one. -/
theorem braces_and_old_form_break :
    ¬ (∀ (u : Unicode) (v c : Text) (path : Option Text) (allowEmpty : Bool), '/' ∉ v → Plain v → v ≠ [] →
        normalizeCollectionPath path allowEmpty = .ok c → RoundTrips u v c) ∧
      ¬ ∀ (uri : Text) (r : ParsedUri), parseUri uri = some r → (rebuild r).toOption.bind parseUri = some r := by
  constructor
  · intro h
    have hnormal : normalizeCollectionPath (some ['a', '\x7b', 'b', '\x7d']) true = .ok ['a', '\x7b', 'b', '\x7d'] := by rfl
    have hcoll := (h asciiOnly ['V'] _ _ _ (by decide) (by unfold Plain; decide) (by decide) hnormal).coll (by decide)
    revert hcoll
    decide
  · intro h
    have hparse : parseUri "akb://V/doc/specs/api.md".toList = some ⟨['V'], .doc, some "specs/api.md".toList, none⟩ := by
      decide +kernel
    have hagain := h _ _ hparse
    revert hagain
    decide

end Akb.Uri
