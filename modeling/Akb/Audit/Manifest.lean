import Akb.Audit.Verifiable
import Akb.Library.PyLines

/-! The manifest that the uploader writes beside the file of a day. -/
namespace Akb.Audit
open Akb.Library Akb.Library.Json

structure Manifest where
  date : String
  file : String
  count : Nat
  firstSeq : Value
  lastSeq : Value
  headHash : Value
  sha256 : String
  schema : Int

/-- `value.get(key)`; only a dictionary has it. -/
def getKey (key : String) : Value → Option Value
  | .dict fields => some ((fields.lookup key).getD .null)
  | _ => none

def firstSeqOf : List (List Char) → Option Value
  | [] => some .null
  | line :: _ => (loads line).bind (getKey "seq")

def lastOf (lines : List (List Char)) : Option Value :=
  match lines.getLast? with
  | none => some (.dict [])
  | some line => loads line

/-- `_manifest`, none where it raises. -/
def manifest (sha256 : List Char → String) (file day : String) (raw : List Char) : Option Manifest := do
  let lines := nonblank (PyLines.lines raw)
  let firstSeq ← firstSeqOf lines
  let last ← lastOf lines
  return {
    date := day
    file
    count := lines.length
    firstSeq
    lastSeq := ← getKey "seq" last
    headHash := ← getKey "h" last
    sha256 := sha256 raw
    schema := schemaVersion }

/-- A record as `_write_one` appends it. -/
structure Record where
  payload : Payload
  seq : Nat
  h : String

def Record.value (r : Record) : Value := .dict (r.payload.chained r.seq r.h)

def Record.line (r : Record) : List Char := (r.value.render 1).getD []

variable {Day : Type} [DecidableEq Day] {sha256 : List Char → String}

/-- The record whose line `_write_one` has ready behind the roll to the day. -/
def Writer.ready (sha256 : List Char → String) (w : Writer Day) (p : Payload) : Option Record :=
  match chain sha256 w.prev (p.core (w.seq + 1)) with
  | none => none
  | some h => if ((Value.dict (p.chained (w.seq + 1) h)).render 1).isSome then some ⟨p, w.seq + 1, h⟩ else none

/-- The records that a step appends to the file of the day: one or none. -/
def Writer.appends (sha256 : List Char → String) (w : Writer Day) (day : Day) : Step Day → List Record
  | .write d readable p .whole => if d = day then ((w.onDay d readable).ready sha256 p).toList else []
  | _ => []

/-- The records that a run appends to the file of the day. -/
def recordsOf (sha256 : List Char → String) (day : Day) : Writer Day → List (Step Day) → List Record
  | _, [] => []
  | w, a :: steps => w.appends sha256 day a ++ recordsOf sha256 day (w.next sha256 a) steps

/-- The step appends its line whole or nothing of it. -/
def Untorn : Step Day → Prop
  | .init _ _ => True
  | .write _ _ _ a => a = .whole ∨ a = .cut 0

/-- The manifest exists and tells how many records there are, the numbers of the first and the last and the hash
of the last. -/
def Describes (m : Option Manifest) (records : List Record) : Prop :=
  ∃ m', m = some m' ∧ m'.count = records.length ∧
    m'.firstSeq = (records.head?.map (fun r => Value.int r.seq)).getD .null ∧
    m'.lastSeq = (records.getLast?.map (fun r => Value.int r.seq)).getD .null ∧
    m'.headHash = (records.getLast?.map (fun r => Value.str r.h)).getD .null

/-- No text of the record has one of the line ends that `json` leaves as they are. -/
def Record.Unbroken (r : Record) : Prop :=
  ∀ c ∈ (Value.dict (r.payload.core r.seq)).chars, c ∉ ['\u0085', '\u2028', '\u2029']

/-! ### What a run appends -/

theorem files_onDay (w : Writer Day) (day : Day) (readable : Bool) : (w.onDay day readable).files = w.files := by
  have hreseed : (w.reseed day readable).files = w.files := by
    simp only [Writer.reseed]
    split
    · split
      · rfl
      · split <;> rfl
    · rfl
  rw [Writer.onDay]
  split
  · rfl
  · exact hreseed

omit [DecidableEq Day] in
theorem ready_spec {w : Writer Day} {p : Payload} {r : Record} (h : w.ready sha256 p = some r) :
    r.value.render 1 = some r.line ∧ ∃ text, r.h = sha256 text := by
  unfold Writer.ready at h
  cases hchain : chain sha256 w.prev (p.core (w.seq + 1)) with
  | none =>
    rw [hchain] at h
    cases h
  | some head =>
    simp only [hchain] at h
    split at h
    · rename_i hsome
      obtain ⟨line, hline⟩ := Option.isSome_iff_exists.mp hsome
      obtain rfl := Option.some.inj h
      refine ⟨?_, ?_⟩
      · rw [Record.line, Record.value, hline, Option.getD_some]
      · unfold chain at hchain
        split at hchain
        · obtain ⟨text, -, htext⟩ := Option.map_eq_some_iff.mp hchain
          exact ⟨_, htext.symm⟩
        · cases hchain
    · cases h

theorem files_writeNext (sha256 : List Char → String) (w : Writer Day) (d day : Day) (p : Payload) (a : Append) :
    (w.writeNext sha256 d p a).files day = w.files day ++
      if d = day then ((w.ready sha256 p).toList.flatMap fun r => a.left (r.line ++ ['\n'])) else [] := by
  simp only [Writer.writeNext, Writer.ready]
  cases chain sha256 w.prev (p.core (w.seq + 1)) with
  | none => simp
  | some h =>
    simp only
    cases hline : (Value.dict (p.chained (w.seq + 1) h)).render 1 with
    | none => simp
    | some line =>
      by_cases hday : day = d
      · subst hday
        simp [Writer.append, Record.line, Record.value, hline]
      · simp [Writer.append, hday, Ne.symm hday]

/-- An untorn step leaves the lines of what it appends behind the file. -/
theorem files_next (w : Writer Day) {a : Step Day} (ha : Untorn a) (day : Day) :
    (w.next sha256 a).files day = w.files day ++ joined ((w.appends sha256 day a).map Record.line) := by
  cases a with
  | init d readable =>
    have hreseed := files_onDay { (Writer.fresh : Writer Day) with files := w.files } d readable
    have hinit : (w.next sha256 (.init d readable)).files = w.files := by
      simpa [Writer.next, Writer.onDay, Writer.fresh] using hreseed
    rw [hinit]
    exact (List.append_nil _).symm
  | write d readable p a =>
    have hfiles := files_writeNext sha256 (w.onDay d readable) d day p a
    rw [files_onDay] at hfiles
    rw [Writer.next, Writer.writeOne, hfiles]
    rcases ha with rfl | rfl
    · by_cases hday : d = day
      · simp [Writer.appends, hday, Append.left, joined, List.flatMap_map]
      · simp [Writer.appends, hday, joined]
    · have hnothing (text : List Char) : (Append.cut 0).left text = [] := by rw [Append.left, List.take_zero]
      have hnone : (Option.toList ((w.onDay d readable).ready sha256 p)).flatMap
          (fun r => (Append.cut 0).left (r.line ++ ['\n'])) = [] := by
        simp [hnothing]
      rw [hnone, ite_self]
      rfl

/-- The file of a day is the lines of the records that were appended to it. -/
theorem files_run (sha256 : List Char → String) {steps : List (Step Day)} (h : ∀ a ∈ steps, Untorn a) (w : Writer Day) (day : Day) :
    (steps.foldl (Writer.next sha256) w).files day =
      w.files day ++ joined ((recordsOf sha256 day w steps).map Record.line) := by
  induction steps generalizing w with
  | nil => exact (List.append_nil _).symm
  | cons a steps ih =>
    obtain ⟨ha, hsteps⟩ := List.forall_mem_cons.mp h
    rw [List.foldl_cons, ih hsteps, files_next w ha, recordsOf, List.map_append, joined, joined, joined,
      List.flatMap_append, List.append_assoc]

theorem recordsOf_spec (sha256 : List Char → String) (steps : List (Step Day)) (w : Writer Day) (day : Day) :
    ∀ r ∈ recordsOf sha256 day w steps, r.value.render 1 = some r.line ∧ ∃ text, r.h = sha256 text := by
  induction steps generalizing w with
  | nil => simp [recordsOf]
  | cons a steps ih =>
    intro r hr
    rcases List.mem_append.mp hr with hr | hr
    · unfold Writer.appends at hr
      split at hr
      · split at hr
        · exact ready_spec (Option.mem_toList.mp hr)
        · cases hr
      · cases hr
    · exact ih _ r hr

/-! ### The lines that `splitlines` finds -/

theorem lines_joined (lines : List (List Char)) :
    PyLines.lines (joined lines) = lines.flatMap (fun line => PyLines.lines (line ++ ['\n'])) := by
  induction lines with
  | nil => rfl
  | cons line lines ih =>
    have hcons : joined (line :: lines) = line ++ ['\n'] ++ joined lines := rfl
    rw [hcons, PyLines.lines_append (PyLines.closed_newline line), ih, List.flatMap_cons]

theorem nonblank_append (a b : List (List Char)) : nonblank (a ++ b) = nonblank a ++ nonblank b :=
  List.filter_append a b

theorem nonblank_ne_nil {text : List Char} {c : Char} (hc : c ∈ text) (hspace : PyText.isSpace c = false) :
    nonblank (PyLines.lines text) ≠ [] := by
  obtain ⟨line, hline, hmem⟩ := PyLines.exists_line hc hspace
  exact List.ne_nil_of_mem (List.mem_filter.mpr ⟨hline, by simpa using List.ne_nil_of_mem hmem⟩)

section Line
variable {fields : List (String × Value)} {line : List Char}

theorem nonblank_unbroken (h : (Value.dict fields).render 1 = some line) (hplain : ∀ c ∈ line, PyLines.isBreak c = false) :
    nonblank (PyLines.lines (line ++ ['\n'])) = [line] := by
  obtain ⟨hstrip, hne⟩ := strip_line h
  rw [PyLines.lines_single hplain, nonblank, List.filter_cons_of_pos (by simpa [hstrip] using hne), List.filter_nil]

theorem braces_line (h : (Value.dict fields).render 1 = some line) : ∃ s, line = '{' :: (s ++ ['}']) := by
  obtain ⟨t, ht, rfl⟩ := Option.map_eq_some_iff.mp h
  obtain ⟨s, rfl⟩ := renderFields_last ht
  exact ⟨s, rfl⟩

theorem one_le_nonblank (h : (Value.dict fields).render 1 = some line) :
    1 ≤ (nonblank (PyLines.lines (line ++ ['\n']))).length := by
  obtain ⟨s, rfl⟩ := braces_line h
  exact List.length_pos_iff.mpr (nonblank_ne_nil (c := '{') (by simp) (by decide))

/-- A line end inside the line leaves something in front of it and something behind it. -/
theorem two_le_nonblank (h : (Value.dict fields).render 1 = some line) (hbreak : ∃ c ∈ line, PyLines.isBreak c) :
    2 ≤ (nonblank (PyLines.lines (line ++ ['\n']))).length := by
  obtain ⟨s, hline⟩ := braces_line h
  obtain ⟨c, hc, hcbreak⟩ := hbreak
  obtain ⟨a, d, b, hsplit, ha, hd⟩ : ∃ a d b, line = a ++ d :: b ∧ (∀ x ∈ a, PyLines.isBreak x = false) ∧
      PyLines.isBreak d := by
    have htake := List.takeWhile_append_dropWhile (p := fun x => !PyLines.isBreak x) (l := line)
    cases hrest : line.dropWhile (fun x => !PyLines.isBreak x) with
    | nil =>
      have hnone := List.dropWhile_eq_nil_iff.mp hrest c hc
      rw [hcbreak] at hnone
      cases hnone
    | cons d b =>
      rw [hrest] at htake
      refine ⟨_, d, b, htake.symm, fun x hx => ?_, ?_⟩
      · simpa using List.all_eq_true.mp List.all_takeWhile x hx
      · have hhead := List.head?_dropWhile_not (fun x => !PyLines.isBreak x) line
        rw [hrest] at hhead
        simpa using hhead
  have hcr : d ≠ '\r' := by
    rintro rfl
    have hshown := (shows_render 1 _ h '\r' (by rw [hsplit]; simp)).1
    exact absurd hshown (by decide)
  have hfirst : '{' ∈ a := by
    cases a with
    | nil =>
      rw [hsplit] at hline
      obtain ⟨rfl, -⟩ := List.cons.inj hline
      exact absurd hd (by decide)
    | cons x a =>
      rw [hsplit] at hline
      obtain ⟨rfl, -⟩ := List.cons.inj hline
      exact List.mem_cons_self
  have hlast : '}' ∈ b := by
    have hend : (a ++ d :: b).getLast? = some '}' := by
      rw [← hsplit, hline, ← List.cons_append, List.getLast?_concat]
    rcases List.eq_nil_or_concat b with rfl | ⟨b, x, rfl⟩
    · rw [List.getLast?_concat] at hend
      obtain rfl := Option.some.inj hend
      exact absurd hd (by decide)
    · have hconcat : a ++ d :: b.concat x = (a ++ d :: b) ++ [x] := by simp
      rw [hconcat, List.getLast?_concat] at hend
      obtain rfl := Option.some.inj hend
      simp
  have hkeep : PyLines.lines (line ++ ['\n']) = PyLines.chop (a ++ [d]) :: PyLines.lines (b ++ ['\n']) := by
    rw [hsplit, List.append_assoc, List.cons_append, PyLines.lines, PyLines.keepLines_break ha hd hcr]
    rfl
  have hfront : PyText.strip (PyLines.chop (a ++ [d])) ≠ [] :=
    List.ne_nil_of_mem (PyLines.mem_strip (c := '{') (PyLines.mem_chop (List.mem_append_left _ hfirst) (by decide))
      (by decide))
  have hback := List.length_pos_iff.mpr (nonblank_ne_nil (List.mem_append_left ['\n'] hlast) (by decide))
  rw [hkeep, nonblank, List.filter_cons_of_pos (by simpa using hfront), List.length_cons]
  exact Nat.succ_le_succ hback

end Line

/-! ### The manifest of appended records -/

theorem fieldChars_append (fields more : List (String × Value)) :
    fieldChars (fields ++ more) = fieldChars fields ++ fieldChars more := by
  induction fields with
  | nil => rfl
  | cons f fields ih =>
    obtain ⟨key, v⟩ := f
    rw [List.cons_append, fieldChars, fieldChars, ih]
    simp only [List.append_assoc]

/-- `hexdigest` is written with hexadecimal digits. -/
def HexDigests (sha256 : List Char → String) : Prop :=
  ∀ text, ∀ c ∈ (sha256 text).toList, c ∈ "0123456789abcdef".toList

theorem isBreak_big {c : Char} (hbreak : PyLines.isBreak c) (hshown : 32 ≤ c.toNat) : c ∈ ['\u0085', '\u2028', '\u2029'] := by
  simp only [PyLines.isBreak, Bool.or_eq_true, Bool.and_eq_true, decide_eq_true_eq, beq_iff_eq] at hbreak
  have hval {d : Char} (h : c.toNat = d.toNat) : c = d := by
    rw [← Char.ofNat_toNat c, h, Char.ofNat_toNat]
  have hcases : c.toNat = 0x85 ∨ c.toNat = 0x2028 ∨ c.toNat = 0x2029 := by omega
  rcases hcases with h | h | h
  · rw [hval (d := '\u0085') h]
    simp
  · rw [hval (d := '\u2028') h]
    simp
  · rw [hval (d := '\u2029') h]
    simp

/-- The line of a record has a line end inside exactly when a text of the record has one that `json` leaves. -/
theorem unbroken_iff (hsha : HexDigests sha256) {r : Record} (hline : r.value.render 1 = some r.line)
    (hh : ∃ text, r.h = sha256 text) : r.Unbroken ↔ ∀ c ∈ r.line, PyLines.isBreak c = false := by
  have hmarks : ∀ c ∈ ['\u0085', '\u2028', '\u2029'], PyLines.isBreak c ∧ 128 ≤ c.toNat := by decide
  have hchars : r.value.chars = (Value.dict (r.payload.core r.seq)).chars ++ ("h".toList ++ r.h.toList ++ []) :=
    fieldChars_append _ _
  constructor
  · intro hunbroken c hc
    rw [Bool.eq_false_iff]
    intro hbreak
    have hshows := shows_render 1 _ hline c hc
    have hbig := isBreak_big hbreak hshows.1
    have hmem := hshows.2 (hmarks c hbig).2
    rw [hchars] at hmem
    rcases List.mem_append.mp hmem with hcore | hdigest
    · exact hunbroken c hcore hbig
    · have hsmall : ∀ d ∈ 'h' :: "0123456789abcdef".toList, d.toNat < 128 := by decide
      have hd : c ∈ 'h' :: "0123456789abcdef".toList := by
        obtain ⟨text, htext⟩ := hh
        rw [List.append_nil] at hdigest
        rcases List.mem_append.mp hdigest with hkey | hdigit
        · exact List.mem_cons.mpr (Or.inl (List.mem_singleton.mp hkey))
        · exact List.mem_cons_of_mem _ (hsha text c (htext ▸ hdigit))
      exact absurd (hsmall c hd) (Nat.not_lt.mpr (hmarks c hbig).2)
  · intro hplain c hc hbig
    have hmem : c ∈ r.line := mem_render 1 _ hline (hchars ▸ List.mem_append_left _ hc) (hmarks c hbig).2
    have hnone := hplain c hmem
    rw [(hmarks c hbig).1] at hnone
    cases hnone

variable {records : List Record}

theorem nonblank_records (hrecords : ∀ r ∈ records, r.value.render 1 = some r.line)
    (hplain : ∀ r ∈ records, ∀ c ∈ r.line, PyLines.isBreak c = false) :
    nonblank (PyLines.lines (joined (records.map Record.line))) = records.map Record.line := by
  rw [lines_joined]
  induction records with
  | nil => rfl
  | cons r records ih =>
    rw [List.forall_mem_cons] at hrecords hplain
    rw [List.map_cons, List.flatMap_cons, nonblank_append, nonblank_unbroken hrecords.1 hplain.1,
      ih hrecords.2 hplain.2]
    rfl

theorem length_nonblank_records (hrecords : ∀ r ∈ records, r.value.render 1 = some r.line) :
    records.length ≤ (nonblank (PyLines.lines (joined (records.map Record.line)))).length ∧
      ((∃ r ∈ records, ∃ c ∈ r.line, PyLines.isBreak c) →
        records.length < (nonblank (PyLines.lines (joined (records.map Record.line)))).length) := by
  rw [lines_joined]
  induction records with
  | nil => exact ⟨Nat.le_refl _, fun h => by simp at h⟩
  | cons r records ih =>
    rw [List.forall_mem_cons] at hrecords
    obtain ⟨hle, hlt⟩ := ih hrecords.2
    have hone := one_le_nonblank hrecords.1
    rw [List.map_cons, List.flatMap_cons, nonblank_append, List.length_append, List.length_cons]
    refine ⟨by omega, ?_⟩
    rintro ⟨r', hr', hbreak⟩
    rcases List.mem_cons.mp hr' with rfl | hr'
    · have htwo := two_le_nonblank hrecords.1 hbreak
      omega
    · have hmore := hlt ⟨r', hr', hbreak⟩
      omega

theorem loads_record {r : Record} (hline : r.value.render 1 = some r.line) : loads r.line = some r.value :=
  loads_line hline

/-- What `_manifest` makes of lines that `splitlines` finds again. -/
theorem manifest_records (hrecords : ∀ r ∈ records, r.value.render 1 = some r.line)
    (hlines : nonblank (PyLines.lines (joined (records.map Record.line))) = records.map Record.line) (file day : String) :
    Describes (manifest sha256 file day (joined (records.map Record.line))) records := by
  have hseq (r : Record) : getKey "seq" r.value = some (.int r.seq) := rfl
  have hh (r : Record) : getKey "h" r.value = some (.str r.h) := rfl
  simp only [manifest, hlines, List.length_map]
  cases records with
  | nil => exact ⟨_, rfl, rfl, rfl, rfl, rfl⟩
  | cons first records =>
    have hlast := List.getLast?_eq_some_getLast (List.cons_ne_nil first records)
    have hfirstLoads := loads_record (hrecords first List.mem_cons_self)
    have hlastLoads := loads_record (hrecords _ (List.getLast_mem (List.cons_ne_nil first records)))
    have hlastOf : lastOf ((first :: records).map Record.line) =
        some ((first :: records).getLast (List.cons_ne_nil first records)).value := by
      rw [lastOf, List.getLast?_map, hlast, Option.map_some]
      exact hlastLoads
    have hfirstOf : firstSeqOf ((first :: records).map Record.line) = some (.int first.seq) := by
      rw [List.map_cons, firstSeqOf, hfirstLoads, Option.bind_some, hseq]
    simp only [hlastOf, hfirstOf, hseq, hh, Option.bind_eq_bind, Option.bind_some, Option.pure_def]
    exact ⟨_, rfl, rfl, rfl, by rw [hlast]; rfl, by rw [hlast]; rfl⟩

/-- The manifest of a day describes the records appended to its file exactly when no text of theirs has one of the
line ends that `splitlines` knows and `json` does not escape. -/
theorem manifest_describes_iff (hsha : HexDigests sha256) {steps : List (Step Day)} (hwhole : ∀ a ∈ steps, Untorn a)
    (day : Day) (file date : String) :
    Describes (manifest sha256 file date ((steps.foldl (Writer.next sha256) .fresh).files day))
        (recordsOf sha256 day .fresh steps) ↔
      ∀ r ∈ recordsOf sha256 day .fresh steps, r.Unbroken := by
  have hspec := recordsOf_spec sha256 steps .fresh day
  have hrecords := fun r hr => (hspec r hr).1
  have hplain := fun r hr => unbroken_iff hsha (hspec r hr).1 (hspec r hr).2
  have hfile := files_run sha256 hwhole .fresh day
  rw [hfile]
  change Describes (manifest sha256 file date (joined ((recordsOf sha256 day .fresh steps).map Record.line))) _ ↔ _
  constructor
  · rintro ⟨m, hm, hcount, -⟩ r hr
    refine (hplain r hr).mpr fun c hc => ?_
    rw [Bool.eq_false_iff]
    intro hbreak
    have hmore := (length_nonblank_records hrecords).2 ⟨r, hr, c, hc, hbreak⟩
    have hlines : m.count = (nonblank (PyLines.lines (joined ((recordsOf sha256 day .fresh steps).map Record.line)))).length := by
      simp only [manifest, Option.bind_eq_bind, Option.bind_eq_some_iff, Option.pure_def, Option.some.injEq] at hm
      obtain ⟨_, -, _, -, _, -, _, -, rfl⟩ := hm
      rfl
    omega
  · intro hunbroken
    exact manifest_records hrecords (nonblank_records hrecords fun r hr => (hplain r hr).mp (hunbroken r hr)) file date

/-! ### Two days -/

def putOf (target : String) : Payload :=
  ⟨.str "2026-01-02T03:04:05+00:00", .str "akb_put", .str "ann", .null, .str "eng", .str target, .str "ok", .null, .null,
    by simp [Value.Distinct]⟩

def firstHash : String := "d433cf618ddcc46fa12a85ce214263a681887ee6f6584fc03c4d2a7c149f9e9c"

def secondHash : String := "36b10cc39044571d6510da0d61075071652e3e07875038960e043f630fbc4412"

def brokenHash : String := "cf6148911df90f02f3538f6c5e5cfb8b85b47537635f8289a3cc7837f19303a3"

/-- SHA-256 on the texts that the two days hash. -/
def dayHash (text : List Char) : String :=
  if text = genesis.toList ++ (canonical ((putOf "akb://eng/doc/a.md").core 1)).getD [] then firstHash
  else if text = firstHash.toList ++ (canonical ((putOf "akb://eng/doc/b.md").core 2)).getD [] then secondHash
  else if text = genesis.toList ++ (canonical ((putOf "akb://eng/doc/a\u2028b.md").core 1)).getD [] then brokenHash
  else genesis

theorem dayHash_hex : HexDigests dayHash := by
  have hhex {l : List Char} (h : ∀ c ∈ l, c ∈ "0123456789abcdef".toList) :
      ∀ c ∈ (String.ofList l).toList, c ∈ "0123456789abcdef".toList := by
    rwa [String.toList_ofList]
  intro text
  unfold dayHash
  split
  · exact hhex (by decide)
  split
  · exact hhex (by decide)
  split
  · exact hhex (by decide)
  · exact hhex (by decide)

def plainDay : List (Step Nat) :=
  [.init 1 true, .write 1 true (putOf "akb://eng/doc/a.md") .whole, .write 1 true (putOf "akb://eng/doc/b.md") .whole]

theorem plain_day_described :
    Describes (manifest dayHash "audit-1.jsonl" "1" ((plainDay.foldl (Writer.next dayHash) .fresh).files 1))
      (recordsOf dayHash 1 .fresh plainDay) ∧ (recordsOf dayHash 1 .fresh plainDay).map Record.h = [firstHash, secondHash] := by
  have hwhole : ∀ a ∈ plainDay, Untorn a := by
    intro a ha
    simp only [plainDay, List.mem_cons, List.not_mem_nil, or_false] at ha
    rcases ha with rfl | rfl | rfl
    · trivial
    · exact Or.inl rfl
    · exact Or.inl rfl
  refine ⟨(manifest_describes_iff dayHash_hex hwhole 1 "audit-1.jsonl" "1").mpr ?_, by decide +kernel⟩
  unfold Record.Unbroken
  decide +kernel

/-- A line separator in the target of a call, on the file of another day. -/
def brokenDay : List (Step Nat) := [.init 1 true, .write 1 true (putOf "akb://eng/doc/a\u2028b.md") .whole]

theorem broken_day_has_no_manifest :
    (recordsOf dayHash 1 .fresh brokenDay).length = 1 ∧
    manifest dayHash "audit-1.jsonl" "1" ((brokenDay.foldl (Writer.next dayHash) .fresh).files 1) = none ∧
    ¬ Describes (manifest dayHash "audit-1.jsonl" "1" ((brokenDay.foldl (Writer.next dayHash) .fresh).files 1))
      (recordsOf dayHash 1 .fresh brokenDay) := by
  have hnone : manifest dayHash "audit-1.jsonl" "1" ((brokenDay.foldl (Writer.next dayHash) .fresh).files 1) = none :=
    Option.isNone_iff_eq_none.mp (by decide +kernel)
  refine ⟨by decide +kernel, hnone, ?_⟩
  rw [hnone]
  rintro ⟨m, hm, -⟩
  cases hm

end Akb.Audit
