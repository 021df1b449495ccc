import Akb.Okf.Bundles
import Mathlib.Data.List.Dedup

/-! Conformance: the three MUST rules, checked on the files of a bundle. -/
namespace Akb.Okf
open Akb.Library PyText PyLines

inductive Level
  | error
  deriving DecidableEq

structure Finding where
  level : Level
  path : Text
  code : String
  message : String

structure Report where
  filesChecked : Nat
  findings : List Finding

/-- `ConformanceReport.ok`. -/
def Report.ok (r : Report) : Bool := !r.findings.any (fun f => f.level = .error)

/-- `type_value is None`, or a text of blanks. -/
def typeMissing : Option Value → Bool
  | none => true
  | some .null => true
  | some (.text s) => strip s = []
  | some _ => false

/-- `_check_concept`. -/
def checkConcept (py : Runtime) (path text : Text) : List Finding :=
  match splitFrontmatter py text with
  | (none, _, true) =>
    [⟨.error, path, "okf.frontmatter.unparseable", "frontmatter block is not a parseable YAML mapping"⟩]
  | (none, _, false) =>
    [⟨.error, path, "okf.frontmatter.missing", "concept document has no YAML frontmatter block"⟩]
  | (some m, _, _) =>
    if typeMissing (m.lookup "type".toList) then
      [⟨.error, path, "okf.type.missing", "frontmatter has no non-empty `type` field"⟩]
    else []

/-- `_check_index`. -/
def checkIndex (py : Runtime) (path text : Text) : List Finding :=
  if (splitFrontmatter py text).2.2 && path ≠ indexName then
    [⟨.error, path, "okf.index.frontmatter", "only the bundle-root index.md may carry frontmatter"⟩]
  else []

def datePrefix : Text := ['#', '#', ' ']

/-- The headings of the date lines. -/
def headings (text : Text) : List Text :=
  ((lines text).filter fun line => datePrefix.isPrefixOf line).map fun line => strip (line.drop datePrefix.length)

/-- `_check_log`. -/
def checkLog (py : Runtime) (path text : Text) : List Finding :=
  (if (splitFrontmatter py text).2.2 then
    [⟨.error, path, "okf.log.frontmatter", "log.md must not carry frontmatter"⟩]
  else []) ++
    ((headings text).filter fun heading => !IsoDate.accepts heading).map fun heading =>
      ⟨.error, path, "okf.log.date",
        "date heading '" ++ String.ofList heading ++ "' is not ISO 8601 YYYY-MM-DD"⟩

def checkFile (py : Runtime) (file : Text × Text) : List Finding :=
  let name := fileName file.1
  if name = indexName then checkIndex py file.1 file.2
  else if name = logName then checkLog py file.1 file.2
  else checkConcept py file.1 file.2

/-- `check_bundle`. -/
def checkBundle (py : Runtime) (files : Bundle) : Report :=
  let checked := (sortedFiles files).filter fun file => mdSuffix.isSuffixOf file.1
  ⟨checked.length, checked.flatMap (checkFile py)⟩

section Findings
variable {py : Runtime}

theorem Finding.level_eq (f : Finding) : f.level = .error := by cases f.level; rfl

theorem ok_iff {r : Report} : r.ok = true ↔ r.findings = [] := by
  rw [Report.ok, Bool.not_eq_true', List.any_eq_false]
  constructor
  · intro h
    rw [List.eq_nil_iff_forall_not_mem]
    intro f hf
    exact h f hf (decide_eq_true f.level_eq)
  · intro h f hf
    rw [h] at hf
    cases hf

/-- A bundle is conformant when no file of it has a finding. -/
theorem checkBundle_ok_iff {b : Bundle} : (checkBundle py b).ok = true ↔
    ∀ file ∈ b.rows, mdSuffix.isSuffixOf file.1 = true → checkFile py file = [] := by
  rw [ok_iff, checkBundle, List.flatMap_eq_nil_iff]
  have hmem (file : Text × Text) : file ∈ (sortedFiles b).filter (fun file => mdSuffix.isSuffixOf file.1) ↔
      file ∈ b.rows ∧ mdSuffix.isSuffixOf file.1 = true := by
    rw [List.mem_filter, sortedFiles, sortedBy, (List.perm_insertionSort _ _).mem_iff]
  simp only [hmem, and_imp]

theorem hasBlock_compose {m : Meta} (h : Closed (py.safeDump m)) (body : Text) :
    (splitFrontmatter py (compose py m body)).2.2 = true := by rw [splitFrontmatter_compose h]

/-- A concept file passes under a name that is not reserved, when its block reads back with a type. -/
theorem checkFile_concept_iff {c : Concept} (h : Closed (py.safeDump c.frontmatter)) (hroot : c.path ≠ indexName) :
    checkFile py (c.file py) = [] ↔ reserved (fileName c.path) = false ∧
      ∃ m, py.readsAs c.frontmatter = some m ∧ typeMissing (m.lookup "type".toList) = false := by
  rw [checkFile, Concept.file]
  dsimp only
  by_cases hindex : fileName c.path = indexName
  · rw [if_pos hindex, checkIndex, hasBlock_compose h, decide_eq_true hroot, Bool.and_self, if_pos rfl, reserved,
      decide_eq_true hindex]
    simp
  by_cases hlog : fileName c.path = logName
  · rw [if_neg hindex, if_pos hlog, checkLog, hasBlock_compose h, if_pos rfl, reserved, decide_eq_true hlog]
    simp
  rw [if_neg hindex, if_neg hlog, checkConcept, splitFrontmatter_compose h, reserved, decide_eq_false hindex,
    decide_eq_false hlog]
  cases hread : py.readsAs c.frontmatter with
  | none => simp
  | some m => simp

theorem checkFile_index (index : Text) : checkFile py (indexName, index) = [] := by
  have hname : fileName indexName = indexName := by decide
  rw [checkFile, hname, if_pos rfl, checkIndex]
  simp

/-- A log without a block is checked for its date lines alone. -/
theorem checkFile_log_iff {log : Text} (h : fence.isPrefixOf log = false) :
    checkFile py (logName, log) = [] ↔ ∀ heading ∈ headings log, IsoDate.accepts heading = true := by
  have hname : fileName logName = logName := by decide
  have hnot : logName ≠ indexName := by decide
  rw [checkFile, hname, if_neg hnot, if_pos rfl, checkLog, splitFrontmatter, h]
  simp

end Findings

section Headings

theorem headings_append {s : Text} (h : Closed s) (t : Text) : headings (s ++ t) = headings s ++ headings t := by
  rw [headings, lines_append h, List.filter_append, List.map_append]
  rfl

/-- A line that begins otherwise is no heading, whatever its later lines are. -/
theorem headings_single {s : Text} (h : ∀ c ∈ s, isBreak c = false) :
    headings (s ++ ['\n']) = if datePrefix.isPrefixOf s then [strip (s.drop datePrefix.length)] else [] := by
  rw [headings, lines_single h]
  by_cases hp : datePrefix.isPrefixOf s <;> simp [hp]

theorem strip_of_not_isSpace {s : Text} (h : ∀ c ∈ s, isSpace c = false) : strip s = s := by
  obtain ⟨lead, trail, hs, hlead, htrail⟩ := strip_spec s
  have hnil {t : Text} (ht : ∀ c ∈ t, isSpace c = true) (hsub : ∀ c ∈ t, c ∈ s) : t = [] := by
    rw [List.eq_nil_iff_forall_not_mem]
    intro c hc
    have hfalse := h c (hsub c hc)
    rw [ht c hc] at hfalse
    cases hfalse
  have hl : lead = [] := hnil hlead fun c hc => hs ▸ List.mem_append_left _ (List.mem_append_left _ hc)
  have ht : trail = [] := hnil htrail fun c hc => hs ▸ List.mem_append_right _ hc
  rw [hl, ht, List.nil_append, List.append_nil] at hs
  exact hs.symm

/-- The date line of a day. -/
theorem headings_day {day : Text} (h : IsoDate.accepts day = true) : headings ("## ".toList ++ day ++ ['\n']) = [day] := by
  have hbreak : ∀ c ∈ "## ".toList ++ day, isBreak c = false := by
    intro c hc
    rcases List.mem_append.mp hc with hc | hc
    · exact (by decide : ∀ c ∈ "## ".toList, isBreak c = false) c hc
    · rw [← Bool.not_eq_true]
      intro hb
      have hspace := isSpace_of_isBreak hb
      rw [IsoDate.not_isSpace_of_accepts h hc] at hspace
      cases hspace
  rw [headings_single hbreak]
  have hp : datePrefix.isPrefixOf ("## ".toList ++ day) = true := by
    rw [List.isPrefixOf_iff_prefix]
    exact List.prefix_append _ day
  have hdrop : ("## ".toList ++ day).drop datePrefix.length = day := rfl
  rw [if_pos hp, hdrop, strip_of_not_isSpace fun c hc => IsoDate.not_isSpace_of_accepts h hc]

end Headings
end Akb.Okf

/-! When an exported bundle is conformant and complete. -/
namespace Akb.Okf
open Akb.Library PyText PyLines

section Log
variable {py : Runtime} {entries : List Entry}

/-- The lines `build_log` joins, the last one empty. -/
def logParts (py : Runtime) (groups : List (Text × List Entry)) : List Text :=
  [logTitle, []] ++ groups.flatMap fun (day, members) =>
    ["## ".toList ++ day, []] ++ (sortedBy (fun e => py.lower e.title) members).map updateLine ++ [[]]

theorem mem_sortedBy {α : Type} {key : α → Text} {l : List α} {a : α} : a ∈ sortedBy key l ↔ a ∈ l :=
  (List.perm_insertionSort _ _).mem_iff

theorem updateLine_end (e : Entry) : updateLine e ≠ [] ∧ rstrip (updateLine e) = updateLine e := by
  have hend : rstrip ")".toList = ")".toList := by decide
  have hne : ")".toList ≠ [] := by decide
  obtain ⟨s, hs⟩ : ∃ s : Text, updateLine e = s ++ ")".toList := ⟨_, rfl⟩
  rw [hs]
  exact ⟨List.append_ne_nil_of_right_ne_nil s hne, rstrip_append hend hne⟩

/-- The last line of the log that is not empty ends without blanks. -/
theorem logParts_end (py : Runtime) {groups : List (Text × List Entry)} (h : ∀ g ∈ groups, g.2 ≠ []) :
    ∃ ps p, logParts py groups = ps ++ [p, []] ∧ p ≠ [] ∧ rstrip p = p := by
  rcases List.eq_nil_or_concat groups with rfl | ⟨gs, ⟨day, members⟩, rfl⟩
  · exact ⟨[], logTitle, rfl, by decide, by decide⟩
  · have hne : (sortedBy (fun e => py.lower e.title) members).map updateLine ≠ [] := by
      have hmembers : members ≠ [] := h (day, members) (by simp)
      obtain ⟨e, rest, rfl⟩ := List.exists_cons_of_ne_nil hmembers
      intro hnil
      have hmem : e ∈ sortedBy (fun e => py.lower e.title) (e :: rest) := mem_sortedBy.mpr List.mem_cons_self
      rw [List.map_eq_nil_iff.mp hnil] at hmem
      cases hmem
    obtain ⟨us, u, hus⟩ := (List.eq_nil_or_concat _).resolve_left hne
    rw [List.concat_eq_append] at hus
    have hu : u ∈ (sortedBy (fun e => py.lower e.title) members).map updateLine := by simp [hus]
    obtain ⟨e, _, rfl⟩ := List.mem_map.mp hu
    refine ⟨logParts py gs ++ (["## ".toList ++ day, []] ++ us), updateLine e, ?_, updateLine_end e⟩
    simp [logParts, hus]

theorem joinWith_lines (ps : List Text) : joinWith ['\n'] (ps ++ [[]]) = ps.flatMap fun p => p ++ ['\n'] := by
  induction ps with
  | nil => rfl
  | cons p ps ih =>
    cases ps with
    | nil => simp [joinWith, List.intercalate_cons_cons]
    | cons q ps =>
      rw [List.flatMap_cons, ← ih]
      simp [joinWith, List.intercalate_cons_cons]

theorem headings_flatMap (ps : List Text) :
    headings (ps.flatMap fun p => p ++ ['\n']) = ps.flatMap fun p => headings (p ++ ['\n']) := by
  induction ps with
  | nil => rfl
  | cons p ps ih => rw [List.flatMap_cons, headings_append (closed_newline p), ih, List.flatMap_cons]

theorem groupBy_mem {α : Type} {key : α → Text} {items : List α} {k : Text} {members : List α}
    (h : (k, members) ∈ groupBy key items) : members ≠ [] ∧ ∀ a, a ∈ members ↔ a ∈ items ∧ key a = k := by
  obtain ⟨k', hk', heq⟩ := List.mem_map.mp h
  cases heq
  obtain ⟨a, ha, rfl⟩ := List.mem_map.mp (List.mem_dedup.mp hk')
  refine ⟨List.ne_nil_of_mem (List.mem_filter.mpr ⟨ha, decide_eq_true rfl⟩), fun b => ?_⟩
  rw [List.mem_filter, decide_eq_true_iff]

theorem mem_groupBy {α : Type} (key : α → Text) {items : List α} {a : α} (h : a ∈ items) :
    (key a, items.filter fun item => key item = key a) ∈ groupBy key items :=
  List.mem_map.mpr ⟨key a, List.mem_dedup.mpr (List.mem_map_of_mem h), rfl⟩

theorem mem_logDays {g : Text × List Entry} : g ∈ logDays py entries ↔
    g ∈ groupBy (fun e => (e.day py).getD noDay) entries ∧ g.1 ≠ noDay := by
  rw [logDays, (List.perm_insertionSort _ _).mem_iff, List.mem_filter, decide_eq_true_iff]

theorem accepts_day {e : Entry} {day : Text} (h : e.day py = some day) : IsoDate.accepts day = true := by
  unfold Entry.day at h
  split at h
  · cases h
  · cases h
  · exact (Option.filter_eq_some_iff.mp h).2

/-- The text of the log is its lines. -/
theorem buildLog_eq (py : Runtime) (entries : List Entry) : ∃ ps, buildLog py entries = ps.flatMap (fun p => p ++ ['\n']) ∧
    logParts py (logDays py entries) = ps ++ [[]] := by
  obtain ⟨ps, p, hparts, hne, hp⟩ := @logParts_end py (logDays py entries) fun g hg =>
    (groupBy_mem (mem_logDays.mp hg).1).1
  refine ⟨ps ++ [p], ?_, by rw [hparts]; simp⟩
  have hlog : buildLog py entries = rstrip (joinWith ['\n'] (logParts py (logDays py entries))) ++ ['\n'] := rfl
  have hsnoc : ps ++ [p, []] = (ps ++ [p]) ++ [[]] := by simp
  rw [hlog, hparts, hsnoc, joinWith_lines, List.flatMap_append, List.flatMap_singleton, ← List.append_assoc,
    rstrip_append_blanks (by decide), rstrip_append hp hne, List.append_assoc]

theorem headings_buildLog : headings (buildLog py entries) =
    (logParts py (logDays py entries)).flatMap fun p => headings (p ++ ['\n']) := by
  obtain ⟨ps, hlog, hparts⟩ := buildLog_eq py entries
  have hnil : headings ([] ++ ['\n']) = [] := by decide
  rw [hlog, headings_flatMap, hparts, List.flatMap_append, List.flatMap_singleton, hnil, List.append_nil]

/-- The date lines of the log are in order when the update lines bring in no others. -/
theorem headings_log_iff : (∀ heading ∈ headings (buildLog py entries), IsoDate.accepts heading = true) ↔
    ∀ e ∈ entries, (e.day py).isSome = true → ∀ heading ∈ headings (updateLine e ++ ['\n']),
      IsoDate.accepts heading = true := by
  rw [headings_buildLog]
  constructor
  · intro h e he hday heading hheading
    obtain ⟨day, hday⟩ := Option.isSome_iff_exists.mp hday
    have hkey : (e.day py).getD noDay = day := by rw [hday]; rfl
    have hnot : day ≠ noDay := by
      rintro rfl
      exact absurd (accepts_day hday) (by decide)
    refine h heading (List.mem_flatMap.mpr ⟨updateLine e, ?_, hheading⟩)
    refine List.mem_append_right _ (List.mem_flatMap.mpr ⟨_, mem_logDays.mpr ⟨mem_groupBy _ he, hkey ▸ hnot⟩, ?_⟩)
    refine List.mem_append_left _ (List.mem_append_right _ (List.mem_map_of_mem ?_))
    exact mem_sortedBy.mpr (List.mem_filter.mpr ⟨he, decide_eq_true rfl⟩)
  · intro h heading hheading
    obtain ⟨p, hp, hin⟩ := List.mem_flatMap.mp hheading
    rcases List.mem_append.mp hp with hp | hp
    · have hnone : ∀ q ∈ [logTitle, []], headings (q ++ ['\n']) = [] := by decide
      rw [hnone p hp] at hin
      cases hin
    · obtain ⟨⟨day, members⟩, hg, hp⟩ := List.mem_flatMap.mp hp
      obtain ⟨hgroup, hnot⟩ := mem_logDays.mp hg
      obtain ⟨hne, hmembers⟩ := groupBy_mem hgroup
      -- the key of a group other than the missing day is the day of its members
      have hday {e : Entry} (he : e ∈ members) : e ∈ entries ∧ e.day py = some day := by
        obtain ⟨hentry, hkey⟩ := (hmembers e).mp he
        refine ⟨hentry, ?_⟩
        cases hd : e.day py with
        | none =>
          rw [hd] at hkey
          exact absurd hkey.symm hnot
        | some d =>
          rw [hd] at hkey
          exact congrArg some hkey
      have hblank : headings ([] ++ ['\n']) = [] := by decide
      simp only [List.mem_append, List.mem_cons, List.not_mem_nil, or_false, List.mem_map, mem_sortedBy] at hp
      rcases hp with ((rfl | rfl) | ⟨e, he, rfl⟩) | rfl
      · obtain ⟨e, he⟩ := List.exists_mem_of_ne_nil members hne
        have haccepts := accepts_day (hday he).2
        rw [headings_day haccepts, List.mem_singleton] at hin
        rwa [hin]
      · rw [hblank] at hin
        cases hin
      · obtain ⟨hentry, hd⟩ := hday he
        exact h e hentry (by rw [hd]; rfl) heading hin
      · rw [hblank] at hin
        cases hin

end Log

section Bundle
variable {py : Runtime} {documents : List Document} {tables : List TableRecord} {files : List FileRecord}

/-- What the header of a concept reads back as; an unreadable one counts as empty. -/
def Runtime.header (py : Runtime) (c : Concept) : Meta := (py.readsAs c.frontmatter).getD []

/-- The entry of a concept in the index and the log. -/
def Runtime.entry (py : Runtime) (c : Concept) : Entry :=
  let m := py.header c
  ⟨c.path, strOr py (m.lookup "title".toList) (c.path.take (c.path.length - 3)),
    strOr py (m.lookup "description".toList) [], m.lookup "timestamp".toList⟩

theorem entryOf_file {c : Concept} (h : Closed (py.safeDump c.frontmatter)) : entryOf py (c.file py) = py.entry c := by
  rw [entryOf, Concept.file, splitFrontmatter_compose h]
  rfl

/-- The records that can be exported: their paths are distinct and free, their YAML blocks read back with a type,
and the title and path of a dated record make up no line that looks like a date line. -/
structure Exportable (py : Runtime) (cs : List Concept) : Prop where
  distinct : (cs.map Concept.path).Nodup
  free : ∀ c ∈ cs, reserved (fileName c.path) = false
  typed : ∀ c ∈ cs, ∃ m, py.readsAs c.frontmatter = some m ∧ typeMissing (m.lookup "type".toList) = false
  dated : ∀ c ∈ cs, ((py.entry c).day py).isSome = true →
    ∀ heading ∈ headings (updateLine (py.entry c) ++ ['\n']), IsoDate.accepts heading = true

theorem suffix_path {c : Concept} (h : c ∈ concepts documents tables files) : mdSuffix.isSuffixOf c.path = true := by
  rw [concepts, List.mem_append, List.mem_append] at h
  rcases h with (h | h) | h
  · obtain ⟨d, _, rfl⟩ := List.mem_map.mp h
    exact suffix_withMdSuffix _
  · obtain ⟨t, _, rfl⟩ := List.mem_map.mp h
    exact suffix_withMdSuffix _
  · obtain ⟨f, _, rfl⟩ := List.mem_map.mp h
    exact suffix_withMdSuffix _

theorem bundleLog_eq (hdump : ∀ m, Closed (py.safeDump m)) : bundleLog py (conceptFiles py documents tables files) =
    buildLog py ((concepts documents tables files).map py.entry) := by
  rw [bundleLog, conceptFiles, List.map_map]
  exact congrArg _ (List.map_congr_left fun c _ => entryOf_file (hdump c.frontmatter))

theorem buildLog_open (entries : List Entry) : fence.isPrefixOf (buildLog py entries) = false := by
  obtain ⟨ps, hlog, hparts⟩ := buildLog_eq py entries
  cases ps with
  | nil =>
    have hlength := congrArg List.length hparts
    simp [logParts] at hlength
  | cons p ps =>
    have hp : logTitle = p := (List.cons.inj hparts).1
    rw [hlog, ← hp]
    rfl

/-- The files of a complete bundle are its concept files, the index, which may carry a block, and the log. -/
theorem ok_iff_files (hd : Distinct (concepts documents tables files)) :
    (checkBundle py (buildBundle py documents tables files)).ok = true ↔
      (∀ c ∈ concepts documents tables files, checkFile py (c.file py) = []) ∧
        ∀ heading ∈ headings (bundleLog py (conceptFiles py documents tables files)), IsoDate.accepts heading = true := by
  obtain ⟨index, hrows⟩ := buildBundle_rows py hd
  have hlog : fence.isPrefixOf (bundleLog py (conceptFiles py documents tables files)) = false := buildLog_open _
  rw [checkBundle_ok_iff, hrows, ← checkFile_log_iff hlog]
  constructor
  · intro h
    refine ⟨fun c hc => h _ (List.mem_append_left _ (List.mem_map_of_mem hc)) (suffix_path hc), ?_⟩
    have hsuffix : mdSuffix.isSuffixOf logName = true := by decide
    exact h (logName, _) (by simp) hsuffix
  · rintro ⟨hfiles, hlogFile⟩ file hfile _
    rcases List.mem_append.mp hfile with hfile | hfile
    · obtain ⟨c, hc, rfl⟩ := List.mem_map.mp hfile
      exact hfiles c hc
    · rcases List.mem_pair.mp hfile with rfl | rfl
      · exact checkFile_index index
      · exact hlogFile

/-- The exported bundle is conformant and has one file for each record exactly when the records can be exported. -/
theorem export_conformant_iff (py : Runtime) (hdump : ∀ m, Closed (py.safeDump m)) (documents : List Document)
    (tables : List TableRecord) (files : List FileRecord) :
    ((checkBundle py (buildBundle py documents tables files)).ok = true ∧
      Complete (buildBundle py documents tables files) (conceptFiles py documents tables files)) ↔
      Exportable py (concepts documents tables files) := by
  have hdated : (∀ heading ∈ headings (bundleLog py (conceptFiles py documents tables files)),
      IsoDate.accepts heading = true) ↔ ∀ c ∈ concepts documents tables files, ((py.entry c).day py).isSome = true →
        ∀ heading ∈ headings (updateLine (py.entry c) ++ ['\n']), IsoDate.accepts heading = true := by
    rw [bundleLog_eq hdump, headings_log_iff]
    simp only [List.forall_mem_map]
  rw [complete_iff]
  constructor
  · rintro ⟨hok, hd⟩
    obtain ⟨hfiles, hlog⟩ := (ok_iff_files hd).mp hok
    have hconcept (c : Concept) (hc : c ∈ concepts documents tables files) :=
      (checkFile_concept_iff (hdump c.frontmatter) (hd.2 c hc).1).mp (hfiles c hc)
    exact ⟨hd.1, fun c hc => (hconcept c hc).1, fun c hc => (hconcept c hc).2, hdated.mp hlog⟩
  · intro h
    have hd : Distinct (concepts documents tables files) := by
      refine ⟨h.distinct, fun c hc => ?_⟩
      rw [← not_or]
      intro hres
      have hfree := h.free c hc
      rw [fileName_of_reserved hres] at hfree
      cases hfree
    refine ⟨(ok_iff_files hd).mpr ⟨fun c hc => ?_, hdated.mpr h.dated⟩, hd⟩
    exact (checkFile_concept_iff (hdump c.frontmatter) (hd.2 c hc).1).mpr ⟨h.free c hc, h.typed c hc⟩

end Bundle

section Sample

/-- PyYAML on mappings of plain words. -/
def wordDump (m : Meta) : Text :=
  m.flatMap fun (key, value) =>
    match value with
    | .text s => key ++ [':', ' '] ++ s ++ ['\n']
    | _ => []

theorem closed_wordDump (m : Meta) : Closed (wordDump m) := by
  induction m with
  | nil => exact Or.inl rfl
  | cons entry m ih =>
    obtain ⟨key, value⟩ := entry
    rw [wordDump, List.flatMap_cons]
    refine Closed.append ?_ ih
    cases value with
    | text s => exact closed_newline _
    | _ => exact Or.inl rfl

def planDocument : Document := { path := "notes/plan.md".toList, title := "Plan".toList, type_ := "spec".toList }

/-- A table beside the document, in the same collection and of the same name. -/
def planTable : TableRecord := { path := "notes/plan".toList, name := "plan".toList }

def wordPython : Runtime where
  safeDump := wordDump
  safeLoad := fun text =>
    ([(conceptFromDocument planDocument).frontmatter, (conceptFromTable planTable).frontmatter].find?
      fun m => wordDump m = text).elim .notMapping .mapping
  lower := PyText.lower
  printTexts := fun _ => []

theorem plan_document_exports : (checkBundle wordPython (buildBundle wordPython [planDocument] [] [])).ok = true ∧
    Complete (buildBundle wordPython [planDocument] [] []) (conceptFiles wordPython [planDocument] [] []) := by
  refine (export_conformant_iff wordPython closed_wordDump [planDocument] [] []).mpr ⟨?_, ?_, ?_, ?_⟩
  · exact List.nodup_singleton _
  · exact List.forall_mem_singleton.mpr (by decide)
  · exact List.forall_mem_singleton.mpr ⟨(conceptFromDocument planDocument).frontmatter, rfl, by decide⟩
  · exact List.forall_mem_singleton.mpr fun h => absurd h (by decide)

/-- A document and a table of one name are one file of the bundle. -/
theorem plan_overwritten : ¬ ∀ (documents : List Document) (tables : List TableRecord) (files : List FileRecord),
    (checkBundle wordPython (buildBundle wordPython documents tables files)).ok = true ∧
      Complete (buildBundle wordPython documents tables files) (conceptFiles wordPython documents tables files) := by
  intro h
  have hpaths := (complete_iff.mp (h [planDocument] [planTable] []).2).1
  revert hpaths
  decide

end Sample
end Akb.Okf
