import Akb.Library.JsonReader
import Akb.Library.PyText
import Akb.Library.JsonChars
import Akb.Library.Run

/-! The audit writer: its chain state, the file of each day, and the check of a file. -/
namespace Akb.Audit
open Akb.Library Akb.Library.Json

def genesis : String := String.ofList (List.replicate 64 '0')

def schemaVersion : Int := 1

/-- What `record` puts into the queue. -/
structure Payload where
  ts : Value
  action : Value
  actor : Value
  actorId : Value
  vault : Value
  target : Value
  outcome : Value
  code : Value
  metadata : Value
  distinct : ∀ v ∈ [ts, action, actor, actorId, vault, target, outcome, code, metadata], v.Distinct

def Payload.core (p : Payload) (seq : Nat) : List (String × Value) :=
  [("v", .int schemaVersion), ("ts", p.ts), ("seq", .int seq), ("action", p.action), ("actor", p.actor),
    ("actor_id", p.actorId), ("vault", p.vault), ("target", p.target), ("outcome", p.outcome), ("code", p.code),
    ("meta", if p.metadata.truthy then p.metadata else .null)]

/-- `core` once its `h` is set. -/
def Payload.chained (p : Payload) (seq : Nat) (h : String) : List (String × Value) := p.core seq ++ [("h", .str h)]

/-- `json.dumps` with sorted keys, without blanks. -/
def canonical (core : List (String × Value)) : Option (List Char) := (Value.dict core).sortKeys.render 0

section Chain
variable (sha256 : List Char → String)

/-- Anything but a text before the canonical one raises. -/
def chain (prev : Value) (core : List (String × Value)) : Option String :=
  match prev with
  | .str prev => (canonical core).map (fun text => sha256 (prev.toList ++ text))
  | _ => none

/-- `(True, -1)`, or the `seq` value of the first line that fails. -/
inductive Verdict where
  | intact
  | broken (seq : Value)

def isText (v : Value) (text : String) : Bool :=
  match v with
  | .str s => s == text
  | _ => false

/-- The loop of `verify_chain`; `none` when it raises. -/
def verifyFrom (prev : Value) (i : Nat) : List (List Char) → Option Verdict
  | [] => some .intact
  | raw :: lines =>
    let raw := PyText.strip raw
    if raw = [] then verifyFrom prev (i + 1) lines
    else
      match loads raw with
      | some (.dict fields) =>
        let h := (fields.lookup "h").getD .null
        match chain sha256 prev (fields.filter (fun f => f.1 ≠ "h")) with
        | some expected =>
          if isText h expected then verifyFrom h (i + 1) lines
          else some (.broken ((fields.lookup "seq").getD (.int i)))
        | none => none
      | _ => none

def verifyChain (lines : List (List Char)) : Option Verdict := verifyFrom sha256 (.str genesis) 0 lines

end Chain

/-- The lines of a file. A carriage return ends none: `json` escapes it. -/
def fileLines (text : List Char) : List (List Char) := text.splitOn '\n'

def nonblank (lines : List (List Char)) : List (List Char) := lines.filter (fun line => PyText.strip line ≠ [])

/-- The chain state of the process beside the files of all days. -/
structure Writer (Day : Type) where
  seq : Nat
  prev : Value
  curDate : Option Day
  files : Day → List Char

variable {Day : Type} [DecidableEq Day]

def Writer.fresh : Writer Day := ⟨0, .str genesis, none, fun _ => []⟩

def Writer.lineCount (w : Writer Day) (day : Day) : Nat := (nonblank (fileLines (w.files day))).length

/-- `_reseed`; any failure to read the file starts a fresh chain. -/
def Writer.reseed (w : Writer Day) (day : Day) (readable : Bool) : Writer Day :=
  let fresh := { w with seq := 0, prev := .str genesis, curDate := some day }
  if readable then
    match (nonblank (fileLines (w.files day))).getLast? with
    | none => fresh
    | some last =>
      match loads last with
      | some (.dict fields) =>
        { fresh with seq := w.lineCount day, prev := (fields.lookup "h").getD (.str genesis) }
      | _ => fresh
  else fresh

/-- The roll to another day that opens `_write_one`. -/
def Writer.onDay (w : Writer Day) (day : Day) (readable : Bool) : Writer Day :=
  if w.curDate = some day then w else w.reseed day readable

/-- How much of a line reaches the file; whether the append raises then tells nothing more. -/
inductive Append where
  | whole
  | cut (reached : Nat)
  deriving DecidableEq

def Append.left (a : Append) (line : List Char) : List Char :=
  match a with
  | .whole => line
  | .cut reached => line.take reached

def Writer.append (w : Writer Day) (day : Day) (text : List Char) : Writer Day :=
  { w with files := fun d => if d = day then w.files d ++ text else w.files d }

/-- The rest of `_write_one`, as `_writer_loop` runs it: where it raises, what was done so far stays. -/
def Writer.writeNext (sha256 : List Char → String) (w : Writer Day) (day : Day) (p : Payload) (a : Append) : Writer Day :=
  let w := { w with seq := w.seq + 1 }
  match chain sha256 w.prev (p.core w.seq) with
  | none => w
  | some h =>
    let w := { w with prev := .str h }
    match (Value.dict (p.chained w.seq h)).render 1 with
    | none => w
    | some line => w.append day (a.left (line ++ ['\n']))

def Writer.writeOne (sha256 : List Char → String) (w : Writer Day) (day : Day) (readable : Bool) (p : Payload)
    (a : Append) : Writer Day := (w.onDay day readable).writeNext sha256 day p a

/-- What happens to the audit log: the process starts, or its writer takes a payload from the
queue. `readable` tells whether the file can be read should the step reseed from it. -/
inductive Step (Day : Type) where
  | init (day : Day) (readable : Bool)
  | write (day : Day) (readable : Bool) (p : Payload) (a : Append)

def Writer.next (sha256 : List Char → String) (w : Writer Day) : Step Day → Writer Day
  | .init day readable => Writer.reseed { Writer.fresh with files := w.files } day readable
  | .write day readable p a => w.writeOne sha256 day readable p a

def Writer.step (sha256 : List Char → String) (w : Writer Day) (a : Step Day) (w' : Writer Day) : Prop :=
  w.next sha256 a = w'

end Akb.Audit

/-! The file of a day verifies as long as no line of it is lost. -/
namespace Akb.Audit
open Akb.Library Akb.Library.Json

variable {sha256 : List Char → String}

/-- The `seq` value of each line. -/
def seqValues (lines : List (List Char)) : List (Option Int) :=
  (nonblank lines).map (fun line => ((loads (PyText.strip line)).bind (Value.get? "seq")).bind Value.toInt?)

/-- `verify_chain` answers `(True, -1)` and the lines are numbered from 1 on. -/
def Verifiable (sha256 : List Char → String) (text : List Char) : Prop :=
  verifyChain sha256 (fileLines text) = some .intact ∧
    seqValues (fileLines text) = (List.range (nonblank (fileLines text)).length).map (fun i => some ((i + 1 : Nat) : Int))

/-- The lines of a file chained from the first on: how many they are and the hash of the last. -/
inductive Chained (sha256 : List Char → String) : Nat → String → List (List Char) → Prop where
  | nil : Chained sha256 0 genesis []
  | snoc {n : Nat} {prev h : String} {lines : List (List Char)} {line : List Char} (p : Payload) :
    Chained sha256 n prev lines → chain sha256 (.str prev) (p.core (n + 1)) = some h →
    (Value.dict (p.chained (n + 1) h)).render 1 = some line → Chained sha256 (n + 1) h (lines ++ [line])

/-! ### One line -/

theorem distinct_line (p : Payload) (seq : Nat) (h : String) : (Value.dict (p.chained seq h)).Distinct := by
  have hfields := p.distinct
  simp only [List.forall_mem_cons] at hfields
  obtain ⟨hts, haction, hactor, hactorId, hvault, htarget, houtcome, hcode, hmetadata, -⟩ := hfields
  have hmeta : (if p.metadata.truthy then p.metadata else .null).Distinct := by
    split
    · exact hmetadata
    · exact trivial
  refine ⟨?_, trivial, hts, trivial, haction, hactor, hactorId, hvault, htarget, houtcome, hcode, hmeta, trivial, trivial⟩
  show (["v", "ts", "seq", "action", "actor", "actor_id", "vault", "target", "outcome", "code", "meta", "h"]).Nodup
  decide

/-- Neither end of a written line is blank. -/
theorem strip_line {fields : List (String × Value)} {line : List Char} (h : (Value.dict fields).render 1 = some line) :
    PyText.strip line = line ∧ line ≠ [] := by
  obtain ⟨t, ht, rfl⟩ := Option.map_eq_some_iff.mp h
  obtain ⟨s, rfl⟩ := renderFields_last ht
  refine ⟨?_, List.cons_ne_nil _ _⟩
  have hlast : ('{' :: (s ++ ['}'])).reverse.dropWhile PyText.isSpace = ('{' :: (s ++ ['}'])).reverse := by
    rw [List.reverse_cons, List.reverse_append]
    exact List.dropWhile_cons_of_neg (by decide)
  rw [PyText.strip, hlast, List.reverse_reverse]
  exact List.dropWhile_cons_of_neg (by decide)

theorem lookup_line (p : Payload) (seq : Nat) (h : String) :
    (p.chained seq h).lookup "h" = some (.str h) ∧ (p.chained seq h).lookup "seq" = some (.int seq) ∧
      (p.chained seq h).filter (fun f => f.1 ≠ "h") = p.core seq :=
  ⟨rfl, rfl, rfl⟩

section Lines
variable {p : Payload} {n : Nat} {prev h : String} {line : List Char}

theorem loads_line (hline : (Value.dict (p.chained n h)).render 1 = some line) :
    loads line = some (.dict (p.chained n h)) :=
  loads_render hline (distinct_line p n h)

theorem verifyFrom_line (hh : chain sha256 (.str prev) (p.core n) = some h)
    (hline : (Value.dict (p.chained n h)).render 1 = some line) (i : Nat) (rest : List (List Char)) :
    verifyFrom sha256 (.str prev) i (line :: rest) = verifyFrom sha256 (.str h) (i + 1) rest := by
  obtain ⟨hstrip, hne⟩ := strip_line hline
  obtain ⟨hh', -, hcore⟩ := lookup_line p n h
  rw [verifyFrom]
  simp only [hstrip, if_neg hne, loads_line hline, hcore, hh, hh', Option.getD_some, isText, beq_self_eq_true, if_true]

end Lines

/-! ### A chain of lines -/

variable {n : Nat} {prev : String} {lines : List (List Char)}

theorem Chained.verifyFrom (hc : Chained sha256 n prev lines) (i : Nat) (rest : List (List Char)) :
    verifyFrom sha256 (.str genesis) i (lines ++ rest) = verifyFrom sha256 (.str prev) (i + n) rest := by
  induction hc generalizing rest with
  | nil => rfl
  | snoc p _ hh hline ih => rw [List.append_assoc, ih, List.singleton_append, verifyFrom_line hh hline, Nat.add_assoc]

theorem Chained.length (hc : Chained sha256 n prev lines) : lines.length = n := by
  induction hc with
  | nil => rfl
  | snoc p _ _ _ ih => rw [List.length_append, ih, List.length_singleton]

theorem Chained.nonblank (hc : Chained sha256 n prev lines) : nonblank lines = lines := by
  induction hc with
  | nil => rfl
  | snoc p _ _ hline ih =>
    obtain ⟨hstrip, hne⟩ := strip_line hline
    rw [Audit.nonblank, List.filter_append] at *
    rw [ih, List.filter_cons_of_pos (by simpa [hstrip] using hne), List.filter_nil]

theorem Chained.newline (hc : Chained sha256 n prev lines) : ∀ line ∈ lines, '\n' ∉ line := by
  induction hc with
  | nil => simp
  | snoc p _ _ hline ih =>
    intro line hm
    rcases List.mem_append.mp hm with hm | hm
    · exact ih line hm
    · rw [List.mem_singleton.mp hm]
      exact newline_render 1 _ hline

theorem Chained.seqValues (hc : Chained sha256 n prev lines) :
    lines.map (fun line => ((loads (PyText.strip line)).bind (Value.get? "seq")).bind Value.toInt?) =
      (List.range n).map (fun i => some ((i + 1 : Nat) : Int)) := by
  induction hc with
  | nil => rfl
  | @snoc n _ h _ _ p _ _ hline ih =>
    have hseq := (lookup_line p (n + 1) h).2.1
    rw [List.map_append, ih, List.range_succ, List.map_append, List.map_singleton, List.map_singleton, (strip_line hline).1,
      loads_line hline, Option.bind_some, Value.get?, hseq, Option.bind_some, Value.toInt?]

/-- What the last line tells `_reseed`. -/
theorem Chained.last (hc : Chained sha256 n prev lines) :
    (lines = [] ∧ prev = genesis) ∨ ∃ last fields, lines.getLast? = some last ∧ loads last = some (.dict fields) ∧
      fields.lookup "h" = some (.str prev) := by
  cases hc with
  | nil => exact Or.inl ⟨rfl, rfl⟩
  | snoc p _ _ hline =>
    exact Or.inr ⟨_, _, by rw [List.getLast?_concat], loads_line hline, (lookup_line p _ _).1⟩

/-! ### The file of a chain -/

def joined (lines : List (List Char)) : List Char := lines.flatMap (· ++ ['\n'])

theorem fileLines_joined (h : ∀ line ∈ lines, '\n' ∉ line) : fileLines (joined lines) = lines ++ [[]] := by
  induction lines with
  | nil => rfl
  | cons line lines ih =>
    obtain ⟨hline, hlines⟩ := List.forall_mem_cons.mp h
    have hrest := ih hlines
    rw [fileLines] at hrest ⊢
    rw [joined, List.flatMap_cons, List.append_assoc, List.singleton_append,
      List.splitOn_append_cons_self_of_not_mem hline]
    exact congrArg (line :: ·) hrest

theorem Chained.fileLines (hc : Chained sha256 n prev lines) :
    fileLines (joined lines) = lines ++ [[]] ∧ Audit.nonblank (Audit.fileLines (joined lines)) = lines := by
  have hfile := fileLines_joined hc.newline
  refine ⟨hfile, ?_⟩
  rw [hfile, Audit.nonblank, List.filter_append]
  exact (congrArg (· ++ []) hc.nonblank).trans (List.append_nil _)

theorem Chained.verifiable (hc : Chained sha256 n prev lines) : Verifiable sha256 (joined lines) := by
  obtain ⟨hfile, hnonblank⟩ := hc.fileLines
  constructor
  · rw [verifyChain, hfile, hc.verifyFrom]
    rfl
  · rw [Audit.seqValues, hnonblank, hc.length, hc.seqValues]

/-! ### Runs of the writer -/

variable {Day : Type}

/-- The file of every day is a chain, and the process is at its end or past it. -/
def Sound (sha256 : List Char → String) (w : Writer Day) : Prop :=
  ∀ day, ∃ n prev lines, Chained sha256 n prev lines ∧ w.files day = joined lines ∧
    (w.curDate = some day → n ≤ w.seq ∧ (w.seq = n → w.prev = .str prev))

variable [DecidableEq Day]

/-- A step that loses no line: it can read the file it reseeds from, and a line that it writes is left whole or
not at all, and only while the process counts the lines that the file has. -/
def KeepsLines (w : Writer Day) : Step Day → Prop
  | .init day readable => readable ∨ w.files day = []
  | .write day readable p a =>
    (w.curDate ≠ some day → readable ∨ w.files day = []) ∧
      ((canonical (p.core ((w.onDay day readable).seq + 1))).isSome →
        a = .cut 0 ∨ a = .whole ∧ (w.curDate = some day → w.seq = w.lineCount day))

omit [DecidableEq Day] in
theorem lineCount_of_chained {w : Writer Day} {day : Day} (hc : Chained sha256 n prev lines)
    (hfile : w.files day = joined lines) : w.lineCount day = n := by
  rw [Writer.lineCount, hfile, hc.fileLines.2, hc.length]

omit [DecidableEq Day] in
/-- Reseeding brings the process to the end of the file. -/
theorem reseed_spec {w : Writer Day} {day : Day} {readable : Bool} (hc : Chained sha256 n prev lines)
    (hfile : w.files day = joined lines) (hread : readable ∨ w.files day = []) :
    w.reseed day readable = { w with seq := n, prev := .str prev, curDate := some day } := by
  have hlines := hc.fileLines.2
  have hcount := hc.length
  rw [Writer.reseed]
  rcases hc.last with ⟨hnil, hprev⟩ | ⟨last, fields, hlast, hloads, hh⟩
  · subst hnil hprev
    obtain rfl : 0 = n := hcount
    rw [hfile, hlines]
    simp
  · have hne : w.files day ≠ [] := by
      rw [hfile]
      rintro hnil
      rw [hnil] at hlines
      rw [← hlines] at hlast
      cases hlast
    rw [if_pos (hread.resolve_right hne), hfile, hlines, hlast]
    simp only [hloads, hh, Option.getD_some, Writer.lineCount, hfile, hlines, hcount]

omit [DecidableEq Day] in
theorem sound_reseed {w : Writer Day} (hw : Sound sha256 w) {day : Day} {readable : Bool}
    (hread : readable ∨ w.files day = []) :
    Sound sha256 (w.reseed day readable) ∧ (w.reseed day readable).curDate = some day ∧
      (w.reseed day readable).files = w.files ∧ (w.reseed day readable).seq = w.lineCount day := by
  obtain ⟨n, prev, lines, hc, hfile, -⟩ := hw day
  rw [reseed_spec hc hfile hread]
  refine ⟨fun other => ?_, rfl, rfl, (lineCount_of_chained hc hfile).symm⟩
  obtain ⟨n', prev', lines', hc', hfile', -⟩ := hw other
  by_cases hday : day = other
  · subst hday
    exact ⟨n, prev, lines, hc, hfile, fun _ => ⟨Nat.le_refl _, fun _ => rfl⟩⟩
  · exact ⟨n', prev', lines', hc', hfile', fun h => absurd (Option.some.inj h) hday⟩

/-- A process at the end of the file of its day either leaves the next line of the chain or nothing. -/
theorem sound_appended {w : Writer Day} (hw : Sound sha256 w) {day : Day} (hcur : w.curDate = some day)
    (p : Payload) (a : Append)
    (hkeeps : (canonical (p.core (w.seq + 1))).isSome → a = .cut 0 ∨ a = .whole ∧ w.seq = w.lineCount day) :
    Sound sha256 (w.writeNext sha256 day p a) := by
  -- a line that is not written leaves the files as they are and puts the process past their end
  have hpast (v : Value) : Sound sha256 { w with seq := w.seq + 1, prev := v } := by
    intro other
    obtain ⟨n, prev, lines, hc, hfile, hpos⟩ := hw other
    refine ⟨n, prev, lines, hc, hfile, fun h => ?_⟩
    obtain ⟨hle, -⟩ := hpos h
    exact ⟨Nat.le_succ_of_le hle, fun heq => absurd heq (by simp only; omega)⟩
  rw [Writer.writeNext]
  simp only
  cases hh : chain sha256 w.prev (p.core (w.seq + 1)) with
  | none => exact hpast w.prev
  | some h =>
    simp only
    cases hline : (Value.dict (p.chained (w.seq + 1) h)).render 1 with
    | none => exact hpast (.str h)
    | some line =>
      have hsome : (canonical (p.core (w.seq + 1))).isSome := by
        cases hprev : w.prev with
        | str prev =>
          rw [hprev, chain] at hh
          exact Option.isSome_map ▸ Option.isSome_of_eq_some hh
        | _ => rw [hprev] at hh; cases hh
      rcases hkeeps hsome with rfl | ⟨rfl, hseq⟩
      · have hnothing : ({ w with seq := w.seq + 1, prev := .str h }.append day
            ((Append.cut 0).left (line ++ ['\n']))) = { w with seq := w.seq + 1, prev := .str h } := by
          simp [Writer.append, Append.left]
        simp only [hnothing]
        exact hpast (.str h)
      · intro other
        obtain ⟨n, prev, lines, hc, hfile, hpos⟩ := hw other
        by_cases hday : other = day
        · subst hday
          obtain rfl : w.seq = n := hseq.trans (lineCount_of_chained hc hfile)
          rw [(hpos hcur).2 rfl] at hh
          refine ⟨w.seq + 1, h, lines ++ [line], hc.snoc p hh hline, ?_, fun _ => ⟨Nat.le_refl _, fun _ => rfl⟩⟩
          simp [Writer.append, Append.left, hfile, joined]
        · refine ⟨n, prev, lines, hc, ?_, fun h => ?_⟩
          · simp [Writer.append, hday, hfile]
          · exact absurd (Option.some.inj (hcur.symm.trans h)).symm hday

/-- A step that loses no line keeps every file a chain. -/
theorem sound_step {w : Writer Day} (hw : Sound sha256 w) {a : Step Day} (hkeeps : KeepsLines w a) :
    Sound sha256 (w.next sha256 a) := by
  cases a with
  | init day readable =>
    have hfresh : Sound sha256 { Writer.fresh with files := w.files } := fun other => by
      obtain ⟨n, prev, lines, hc, hfile, -⟩ := hw other
      exact ⟨n, prev, lines, hc, hfile, fun h => by cases h⟩
    exact (sound_reseed hfresh hkeeps).1
  | write day readable p a =>
    obtain ⟨hread, hline⟩ := hkeeps
    rw [Writer.next, Writer.writeOne]
    by_cases hcur : w.curDate = some day
    · rw [Writer.onDay, if_pos hcur] at hline ⊢
      exact sound_appended hw hcur p a (fun h => (hline h).imp_right (And.imp_right fun hseq => hseq hcur))
    · obtain ⟨hsound, hday, hfiles, hseq⟩ := sound_reseed hw (hread hcur)
      rw [Writer.onDay, if_neg hcur] at hline ⊢
      refine sound_appended hsound hday p a (fun h => (hline h).imp_right (And.imp_right fun _ => ?_))
      rw [hseq, Writer.lineCount, Writer.lineCount, hfiles]

/-- The file of every day verifies, wherever a run ends that loses no line. -/
theorem audit_files_verify {w : Writer Day} {steps : List (Step Day)}
    (hrun : Run (Guarded (Writer.step sha256) KeepsLines) .fresh steps w) (day : Day) :
    Verifiable sha256 (w.files day) := by
  have hsound : Sound sha256 w :=
    hrun.invariant (fun s a t hs h => h.1 ▸ sound_step hs h.2) fun _ => ⟨0, genesis, [], .nil, rfl, fun h => by cases h⟩
  obtain ⟨n, prev, lines, hc, hfile, -⟩ := hsound day
  rw [hfile]
  exact hc.verifiable

/-! ### Two short runs -/

instance decidableKeepsLines (w : Writer Day) (a : Step Day) : Decidable (KeepsLines w a) :=
  match a with
  | .init _ _ => inferInstanceAs (Decidable (_ ∨ _))
  | .write _ _ _ _ => inferInstanceAs (Decidable (_ ∧ _))

def sampleCall : Payload :=
  ⟨.null, .str "akb_put", .null, .null, .null, .null, .null, .null, .null, by simp [Value.Distinct]⟩

/-- The length of a text, in place of its hash. -/
def sampleHash (text : List Char) : String := String.ofList (Nat.toDigits 10 text.length)

/-- The second append fails, and the process is started again before the third. -/
def restarted : List (Step Nat) :=
  [.init 1 true, .write 1 true sampleCall .whole, .write 1 true sampleCall (.cut 0), .init 1 true,
    .write 1 true sampleCall .whole]

theorem audit_files_verify_restarted :
    seqValues (fileLines ((restarted.foldl (Writer.next sampleHash) .fresh).files 1)) = [some 1, some 2] ∧
      Verifiable sampleHash ((restarted.foldl (Writer.next sampleHash) .fresh).files 1) := by
  have hkeeps : Meets (Writer.next sampleHash) KeepsLines .fresh restarted := by decide +kernel
  exact ⟨by decide +kernel, audit_files_verify hkeeps.run 1⟩

/-- One append fails, and the next line is numbered 2 all the same. -/
def unrestarted : List (Step Nat) :=
  [.init 1 true, .write 1 true sampleCall (.cut 0), .write 1 true sampleCall .whole]

theorem lost_line_breaks_file :
    ¬ ∀ (sha256 : List Char → String) (steps : List (Step Nat)) (w : Writer Nat),
      Run (Writer.step sha256) .fresh steps w → Verifiable sha256 (w.files 1) := by
  intro h
  have hnumbers := (h sampleHash unrestarted _ (run_of_foldl _ _ _)).2
  have hseq : seqValues (fileLines ((unrestarted.foldl (Writer.next sampleHash) .fresh).files 1)) = [some 2] := by
    decide +kernel
  rw [hseq] at hnumbers
  cases hlength : (nonblank (fileLines ((unrestarted.foldl (Writer.next sampleHash) .fresh).files 1))).length with
  | zero =>
    rw [hlength] at hnumbers
    cases hnumbers
  | succ n =>
    rw [hlength, List.range_succ_eq_map] at hnumbers
    cases hnumbers

end Akb.Audit
