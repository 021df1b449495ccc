import Akb.Okf.Bundles
import Mathlib.Data.List.Perm.Basic

/-! The documents of a vault come back from its bundle. -/
namespace Akb.Okf
open Akb.Library PyText PyLines

section Headers

theorem lookup_textEntry_ne {k : Text} {key : String} (h : k ≠ key.toList) (s : Text) : (textEntry key s).lookup k = none := by
  unfold textEntry
  split
  · rfl
  · exact lookup_cons_ne h

theorem lookup_textEntry (key : String) (s : Text) :
    (textEntry key s).lookup key.toList = if s = [] then none else some (.text s) := by
  unfold textEntry
  split
  · rfl
  · exact lookup_cons_self

theorem lookup_tags_ne {k : Text} (h : k ≠ "tags".toList) (tags : List Text) :
    List.lookup k (if tags = [] then [] else [("tags".toList, Value.texts tags)]) = none := by
  split
  · rfl
  · exact lookup_cons_ne h

theorem docExtra_keys {rec : Document} {e : Text × Value} (h : e ∈ docExtra rec) :
    e.1 = "status".toList ∨ e.1 = "domain".toList ∨ e.1 = "created_at".toList ∨ e.1 = "akb_uri".toList := by
  have hkey {key : String} {s : Text} (he : e ∈ textEntry key s) : e.1 = key.toList := by
    unfold textEntry at he
    split at he
    · cases he
    · rw [List.mem_singleton.mp he]
  rw [docExtra, List.mem_append, List.mem_append, List.mem_append] at h
  rcases h with ((h | h) | h) | h
  · exact Or.inl (hkey h)
  · exact Or.inr (Or.inl (hkey h))
  · exact Or.inr (Or.inr (Or.inl (hkey h)))
  · exact Or.inr (Or.inr (Or.inr (hkey h)))

variable (d : Document)

/-- What the header of a document's concept says under a key of the record. -/
theorem lookup_frontmatter {k : Text} (h : k ≠ "status".toList ∧ k ≠ "domain".toList ∧ k ≠ "created_at".toList ∧
    k ≠ "akb_uri".toList) : (conceptFromDocument d).frontmatter.lookup k =
      ([("type".toList, .text (orText (orText d.type_ (orText d.docType "note".toList)) "note".toList))] ++
        textEntry "title" d.title ++ textEntry "description" (orText d.summary d.description) ++
        textEntry "resource" d.uri ++ (if d.tags = [] then [] else [("tags".toList, .texts d.tags)]) ++
        textEntry "timestamp" ((iso8601 (orText d.updatedAt d.createdAt)).getD []) : Meta).lookup k := by
  have hextra : ∀ e ∈ docExtra d, k ≠ e.1 := by
    intro e he heq
    rcases docExtra_keys he with hk | hk | hk | hk
    · exact h.1 (heq.trans hk)
    · exact h.2.1 (heq.trans hk)
    · exact h.2.2.1 (heq.trans hk)
    · exact h.2.2.2 (heq.trans hk)
  rw [conceptFromDocument, okfFrontmatter, lookup_reordered, lookup_extras hextra]

theorem lookup_type : (conceptFromDocument d).frontmatter.lookup "type".toList =
    some (.text (orText (orText d.type_ (orText d.docType "note".toList)) "note".toList)) := by
  rw [lookup_frontmatter d (by decide)]
  exact lookup_cons_self

theorem lookup_title : (conceptFromDocument d).frontmatter.lookup "title".toList =
    if d.title = [] then none else some (.text d.title) := by
  rw [lookup_frontmatter d (by decide)]
  simp (disch := decide) only [List.lookup_append, lookup_cons_ne, List.lookup_nil, lookup_textEntry, lookup_textEntry_ne,
    lookup_tags_ne, Option.none_or, Option.or_none]

theorem lookup_description : (conceptFromDocument d).frontmatter.lookup "description".toList =
    if orText d.summary d.description = [] then none else some (.text (orText d.summary d.description)) := by
  rw [lookup_frontmatter d (by decide)]
  simp (disch := decide) only [List.lookup_append, lookup_cons_ne, List.lookup_nil, lookup_textEntry, lookup_textEntry_ne,
    lookup_tags_ne, Option.none_or, Option.or_none]

theorem lookup_summary : (conceptFromDocument d).frontmatter.lookup "summary".toList = none := by
  rw [lookup_frontmatter d (by decide)]
  simp (disch := decide) only [List.lookup_append, lookup_cons_ne, List.lookup_nil, lookup_textEntry_ne, lookup_tags_ne,
    Option.or_none]

theorem lookup_tags : (conceptFromDocument d).frontmatter.lookup "tags".toList =
    if d.tags = [] then none else some (.texts d.tags) := by
  rw [lookup_frontmatter d (by decide)]
  simp (disch := decide) only [List.lookup_append, lookup_cons_ne, List.lookup_nil, lookup_textEntry_ne, Option.none_or,
    Option.or_none]
  split
  · rfl
  · exact lookup_cons_self

end Headers

/-- The record a document comes back as. An absent title reads as the file's name, an absent type as `note`. -/
structure Restored (d : Document) (r : Record) : Prop where
  path : r.path = normalisePath (conceptFromDocument d).path
  samePath : normalisePath d.path = d.path → r.path = d.path
  title : r.title = orText d.title r.slug
  type_ : r.type_ = orText (strip (orText d.type_ (orText d.docType "note".toList))) "note".toList
  summary : r.summary =
    if orText d.summary d.description = [] then none else some (.text (orText d.summary d.description))
  tags : r.tags = d.tags
  content : r.content = strip (orText d.content d.body)

theorem withMdSuffix_ne_nil (path : Text) : withMdSuffix path ≠ [] := by
  unfold withMdSuffix
  split
  · rintro rfl
    contradiction
  · simp [mdSuffix]

theorem conceptPath_of_normal {d : Document} (h : normalisePath d.path = d.path) :
    (conceptFromDocument d).path = d.path := by
  have hne : d.path ≠ [] := fun hnil => withMdSuffix_ne_nil _ (h.trans hnil)
  rw [conceptFromDocument, orText, if_neg hne, h]

theorem orText_ne_nil {a b : Text} (h : b ≠ []) : orText a b ≠ [] := by
  unfold orText
  split
  · exact h
  · assumption

theorem strOr_text (py : Runtime) (s fallback : Text) :
    strOr py (if s = [] then none else some (.text s)) fallback = orText s fallback := by
  by_cases hs : s = []
  · rw [if_pos hs, strOr, orText, if_pos hs]
  · rw [if_neg hs, strOr, Value.truthy, decide_eq_true hs, if_pos rfl, orText, if_neg hs, Value.str]

theorem listOf_tags (d : Document) : listOf ((conceptFromDocument d).frontmatter.lookup "tags".toList) = some d.tags := by
  rw [lookup_tags]
  split
  · rename_i hnil
    rw [hnil]
    rfl
  · rfl

/-- The header and the body of a document's concept restore it. -/
theorem restored_recordWith (py : Runtime) (d : Document) :
    Restored d (recordWith py (conceptFromDocument d).path (conceptFromDocument d).frontmatter
      ('\n' :: (rstrip (conceptFromDocument d).body ++ ['\n'])) d.tags) := by
  refine ⟨?_, fun hp => ?_, ?_, ?_, ?_, ?_, ?_⟩ <;> simp only [recordWith]
  · rw [conceptPath_of_normal hp, hp]
  · rw [lookup_title, strOr_text]
  · have htype : orText d.type_ (orText d.docType "note".toList) ≠ [] := orText_ne_nil (orText_ne_nil (by decide))
    rw [lookup_type, strOr, Value.truthy, Value.str]
    generalize orText d.type_ (orText d.docType "note".toList) = t at htype ⊢
    have ht : orText t "note".toList = t := if_neg htype
    rw [ht, decide_eq_true htype, if_pos rfl]
  · rw [getOr, lookup_description, lookup_summary]
    by_cases hs : orText d.summary d.description = []
    · rw [if_pos hs]
    · simp only [Value.truthy, ne_eq, hs, not_false_eq_true, decide_true, if_true, if_false]
  · have hbody : (conceptFromDocument d).body = strip (orText d.content d.body) := rfl
    rw [hbody, rstrip_strip]
    exact @strip_blanks ['\n'] ['\n'] (by decide) (by decide) _

theorem readConcept_document {py : Runtime} {d : Document} (hy : py.Inverts (conceptFromDocument d).frontmatter)
    (ho : py.Unfenced (conceptFromDocument d).frontmatter) :
    ∃ r, readConcept py ((conceptFromDocument d).file py) = some r ∧ Restored d r := by
  refine ⟨_, ?_, restored_recordWith py d⟩
  rw [readConcept, Concept.file, splitFrontmatter_of_unfenced hy ho]
  exact congrArg (Option.map _) (listOf_tags d)

section Bundle
variable {py : Runtime} {documents : List Document}

theorem mapM_readConcept {ds : List Document} (h : ∀ d ∈ ds, py.Inverts (conceptFromDocument d).frontmatter ∧
    py.Unfenced (conceptFromDocument d).frontmatter) :
    ∃ records, (ds.map fun d => (conceptFromDocument d).file py).mapM (readConcept py) = some records ∧
      List.Forall₂ Restored ds records := by
  induction ds with
  | nil => exact ⟨[], rfl, .nil⟩
  | cons d ds ih =>
    obtain ⟨hy, ho⟩ := h d List.mem_cons_self
    obtain ⟨r, hr, hrestored⟩ := readConcept_document hy ho
    obtain ⟨records, hrecords, hall⟩ := ih fun d' hd' => h d' (List.mem_cons_of_mem _ hd')
    refine ⟨r :: records, ?_, .cons hrestored hall⟩
    rw [List.map_cons, List.mapM_cons, hr, hrecords]
    rfl

/-- The import reads the concept files and passes over the index and the log. -/
theorem filter_isConcept (hfree : ∀ d ∈ documents, reserved (fileName (conceptFromDocument d).path) = false)
    (index log : Text) :
    (conceptFiles py documents [] [] ++ [(indexName, index), (logName, log)]).filter isConcept =
      documents.map fun d => (conceptFromDocument d).file py := by
  have hreserved : [(indexName, index), (logName, log)].filter isConcept = [] := by
    have hindex : isConcept (indexName, index) = false := by
      rw [isConcept, fileName_of_reserved (Or.inl rfl), Bool.not_true, Bool.and_false]
    have hlog : isConcept (logName, log) = false := by
      rw [isConcept, fileName_of_reserved (Or.inr rfl), Bool.not_true, Bool.and_false]
    rw [List.filter_cons_of_neg (by simp [hindex]), List.filter_cons_of_neg (by simp [hlog]), List.filter_nil]
  have hfiles : conceptFiles py documents [] [] = documents.map fun d => (conceptFromDocument d).file py := by
    simp [conceptFiles, concepts]
  rw [List.filter_append, hreserved, List.append_nil, hfiles, List.filter_eq_self]
  rintro file hfile
  obtain ⟨d, hd, rfl⟩ := List.mem_map.mp hfile
  have hsuffix : mdSuffix.isSuffixOf (conceptFromDocument d).path = true := suffix_withMdSuffix _
  rw [isConcept, Concept.file, hsuffix, hfree d hd]
  rfl

/-- Documents whose paths in the bundle are distinct and not reserved, and whose YAML blocks have no line that
reads as `---`, come back from the bundle, one record for each. -/
theorem export_import_round_trip (py : Runtime) (documents : List Document)
    (hdistinct : (documents.map fun d => (conceptFromDocument d).path).Nodup)
    (hfree : ∀ d ∈ documents, reserved (fileName (conceptFromDocument d).path) = false)
    (hyaml : ∀ d ∈ documents, py.Inverts (conceptFromDocument d).frontmatter)
    (hopen : ∀ d ∈ documents, py.Unfenced (conceptFromDocument d).frontmatter) :
    ∃ records sorted, parseOkfBundle py (buildBundle py documents [] []) = some records ∧ sorted.Perm documents ∧
      List.Forall₂ Restored sorted records := by
  have hconcepts : concepts documents [] [] = documents.map conceptFromDocument := by simp [concepts]
  have hpaths : Distinct (concepts documents [] []) := by
    rw [hconcepts, Distinct, List.map_map]
    refine ⟨hdistinct, fun c hc => ?_⟩
    obtain ⟨d, hd, rfl⟩ := List.mem_map.mp hc
    rw [← not_or]
    intro hres
    have hfalse := hfree d hd
    rw [fileName_of_reserved hres] at hfalse
    cases hfalse
  obtain ⟨index, hrows⟩ := buildBundle_rows py hpaths
  have hperm : ((sortedFiles (buildBundle py documents [] [])).filter isConcept).Perm
      (documents.map fun d => (conceptFromDocument d).file py) := by
    rw [← filter_isConcept hfree index (bundleLog py (conceptFiles py documents [] [])), ← hrows]
    exact (List.perm_insertionSort _ _).filter isConcept
  obtain ⟨sorted, hmap, hsorted⟩ := (congrFun (congrFun (List.eq_map_comp_perm _) _) _).mpr hperm
  obtain ⟨records, hrecords, hall⟩ := @mapM_readConcept py sorted fun d hd =>
    ⟨hyaml d (hsorted.mem_iff.mp hd), hopen d (hsorted.mem_iff.mp hd)⟩
  exact ⟨records, sorted, by rw [parseOkfBundle, hmap, hrecords], hsorted, hall⟩

end Bundle

section Sample

/-- PyYAML on mappings of plain words and lists of them. -/
def plainDump (m : Meta) : Text :=
  m.flatMap fun (key, value) =>
    match value with
    | .text s => key ++ [':', ' '] ++ s ++ ['\n']
    | .texts items => key ++ [':', '\n'] ++ items.flatMap fun item => ['-', ' '] ++ item ++ ['\n']
    | _ => []

def sampleDocument : Document :=
  { path := "notes/plan.md".toList, title := "Plan".toList, type_ := "spec".toList, summary := "Goals".toList,
    tags := ["work".toList], content := "Body".toList }

def untitledDocument : Document := { sampleDocument with title := [] }

/-- PyYAML on the headers of the two documents. -/
def plainPython : Runtime where
  safeDump := plainDump
  safeLoad := fun text =>
    (([sampleDocument, untitledDocument].map fun d => (conceptFromDocument d).frontmatter).find?
      fun m => plainDump m = text).elim .notMapping .mapping
  lower := PyText.lower
  printTexts := fun _ => []

theorem inverts_sample : plainPython.Inverts (conceptFromDocument sampleDocument).frontmatter :=
  ⟨closed_newline "type: spec\ntitle: Plan\ndescription: Goals\ntags:\n- work".toList, rfl⟩

theorem inverts_untitled : plainPython.Inverts (conceptFromDocument untitledDocument).frontmatter :=
  ⟨closed_newline "type: spec\ndescription: Goals\ntags:\n- work".toList, rfl⟩

theorem sample_document_returns : ∃ records sorted,
    parseOkfBundle plainPython (buildBundle plainPython [sampleDocument] [] []) = some records ∧
      sorted.Perm [sampleDocument] ∧ List.Forall₂ Restored sorted records := by
  refine export_import_round_trip plainPython [sampleDocument] (List.nodup_singleton _) (by decide) ?_ ?_
  · exact List.forall_mem_singleton.mpr inverts_sample
  · exact List.forall_mem_singleton.mpr (by unfold Runtime.Unfenced; decide)

/-- The record says word for word what the document says. -/
structure Unchanged (d : Document) (r : Record) : Prop where
  path : r.path = d.path
  title : r.title = d.title
  type_ : r.type_ = strip d.type_
  summary : r.summary = some (.text d.summary)
  tags : r.tags = d.tags
  content : r.content = strip d.content

/-- A document without a title comes back under the name of its file. -/
theorem untitled_document_named : ¬ ∀ documents : List Document, (documents.map Document.path).Nodup →
    (∀ d ∈ documents, mdSuffix.isSuffixOf d.path = true ∧ reserved (fileName d.path) = false) →
    (∀ d ∈ documents, plainPython.Inverts (conceptFromDocument d).frontmatter) →
    ∃ records sorted, parseOkfBundle plainPython (buildBundle plainPython documents [] []) = some records ∧
      sorted.Perm documents ∧ List.Forall₂ Unchanged sorted records := by
  intro h
  obtain ⟨records, sorted, hparse, hperm, hall⟩ := h [untitledDocument] (List.nodup_singleton _) (by decide)
    (List.forall_mem_singleton.mpr inverts_untitled)
  have htitles : (parseOkfBundle plainPython (buildBundle plainPython [untitledDocument] [] [])).map (List.map Record.title) =
      some ["plan".toList] := by decide
  rw [List.perm_singleton.mp hperm] at hall
  cases hall with
  | cons hsame hrest =>
    cases hrest
    rw [hparse, Option.map_some, List.map_singleton, hsame.title] at htitles
    revert htitles
    decide

end Sample
end Akb.Okf
