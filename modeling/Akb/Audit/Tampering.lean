import Akb.Audit.Manifest
import Akb.Library.HashChain

/-! The hash of the last line stands for all lines before it: a file that verifies and ends in
the same hash has the same records, or its hashes show two texts with one digest. -/
namespace Akb.Audit
open Akb.Library Akb.Library.Json

/-- The chain of the lines of a file: a record's canonical text is hashed behind the hash of the line before. -/
def lineChain (sha256 : List Char → String) : HashChain String (List Char) (List Char) where
  hash := sha256
  join prev text := prev.toList ++ text
  root := genesis

/-- What `verify_chain` hashes of a line, behind the hash of the line before. -/
def recordText (line : List Char) : Option (List Char) :=
  match loads (PyText.strip line) with
  | some (.dict fields) => canonical (fields.filter (fun f => f.1 ≠ "h"))
  | _ => none

/-- The records of a file, each as its canonical text. -/
def recordTexts (lines : List (List Char)) : List (List Char) := (nonblank lines).filterMap recordText

/-- The `h` of a line. -/
def hashOf (line : List Char) : Value := ((loads (PyText.strip line)).bind (getKey "h")).getD .null

/-- The hash that the next line is chained to. -/
def lastHash (prev : Value) (lines : List (List Char)) : Value := ((nonblank lines).getLast?.map hashOf).getD prev

variable {sha256 : List Char → String} {prev : Value} {raw : List Char} {lines more : List (List Char)}

theorem nonblank_blank (h : PyText.strip raw = []) : nonblank (raw :: lines) = nonblank lines :=
  List.filter_cons_of_neg (by simp [h])

theorem nonblank_line (h : PyText.strip raw ≠ []) : nonblank (raw :: lines) = raw :: nonblank lines :=
  List.filter_cons_of_pos (by simp [h])

theorem lastHash_line (h : PyText.strip raw ≠ []) : lastHash prev (raw :: lines) = lastHash (hashOf raw) lines := by
  rw [lastHash, lastHash, nonblank_line h, List.getLast?_cons, Option.map_some, Option.getD_some]
  cases (nonblank lines).getLast? <;> rfl

theorem isText_iff {v : Value} {text : String} : isText v text ↔ v = .str text := by
  cases v <;> simp [isText]

/-- What the loop of `verify_chain` has checked of a line that it goes past. -/
theorem verifyFrom_cons {prev : String} {i : Nat} (hraw : PyText.strip raw ≠ [])
    (h : verifyFrom sha256 (.str prev) i (raw :: lines) = some .intact) :
    ∃ text, recordText raw = some text ∧ hashOf raw = .str (sha256 (prev.toList ++ text)) ∧
      verifyFrom sha256 (hashOf raw) (i + 1) lines = some .intact := by
  rw [verifyFrom] at h
  simp only [if_neg hraw] at h
  split at h
  · rename_i fields hloads
    have hhash : hashOf raw = (fields.lookup "h").getD .null := by rw [hashOf, hloads]; rfl
    have htext : recordText raw = canonical (fields.filter (fun f => f.1 ≠ "h")) := by rw [recordText, hloads]
    split at h
    · rename_i expected hchain
      obtain ⟨text, hcanonical, rfl⟩ := Option.map_eq_some_iff.mp hchain
      split at h
      · rename_i hequal
        rw [← hhash] at hequal h
        exact ⟨text, htext.trans hcanonical, isText_iff.mp hequal, h⟩
      · cases h
    · cases h
  · cases h

/-- The loop ends at the head of the chain of the records that it went through. -/
theorem lastHash_of_verifyFrom (before : List (List Char)) {i : Nat}
    (h : verifyFrom sha256 (.str ((lineChain sha256).head before)) i lines = some .intact) :
    lastHash (.str ((lineChain sha256).head before)) lines = .str ((lineChain sha256).head (before ++ recordTexts lines)) ∧
      (recordTexts lines).length = (nonblank lines).length := by
  induction lines generalizing before i with
  | nil => exact ⟨by rw [recordTexts, nonblank, List.filter_nil, List.filterMap_nil, List.append_nil]; rfl, rfl⟩
  | cons raw lines ih =>
    by_cases hraw : PyText.strip raw = []
    · rw [verifyFrom] at h
      simp only [if_pos hraw] at h
      rw [lastHash, recordTexts, nonblank_blank hraw]
      exact ih before h
    · obtain ⟨text, htext, hhash, hrest⟩ := verifyFrom_cons hraw h
      have hhead : hashOf raw = .str ((lineChain sha256).head (before ++ [text])) := by
        rw [hhash, HashChain.head_concat]
        rfl
      rw [hhead] at hrest
      obtain ⟨hlast, hlength⟩ := ih (before ++ [text]) hrest
      have htexts : recordTexts (raw :: lines) = text :: recordTexts lines := by
        rw [recordTexts, nonblank_line hraw, List.filterMap_cons, htext]
        rfl
      constructor
      · rw [lastHash_line hraw, hhead, hlast, htexts, List.append_assoc, List.singleton_append]
      · rw [htexts, nonblank_line hraw, List.length_cons, List.length_cons, hlength]

theorem lastHash_of_verifyChain (h : verifyChain sha256 lines = some .intact) :
    lastHash (.str genesis) lines = .str ((lineChain sha256).head (recordTexts lines)) ∧
      (recordTexts lines).length = (nonblank lines).length :=
  lastHash_of_verifyFrom [] h

/-- A file verifies up to each of its lines. -/
theorem verifyFrom_append {i : Nat} (h : verifyFrom sha256 prev i (lines ++ more) = some .intact) :
    verifyFrom sha256 prev i lines = some .intact := by
  induction lines generalizing prev i with
  | nil => rfl
  | cons raw lines ih =>
    rw [List.cons_append, verifyFrom] at h
    rw [verifyFrom]
    simp only at h ⊢
    by_cases hraw : PyText.strip raw = []
    · rw [if_pos hraw] at h ⊢
      exact ih h
    · rw [if_neg hraw] at h ⊢
      split at h
      · rename_i fields hloads
        split at h
        · rename_i expected hchain
          split at h
          · rename_i hequal
            rw [if_pos hequal]
            exact ih h
          · cases h
        · cases h
      · cases h

theorem length_genesis : genesis.length = 64 := by
  unfold genesis
  exact String.length_ofList.trans List.length_replicate

/-- Whoever has the hash of a line has all lines up to it: a text that verifies and ends in that hash has the records
that the file had up to the line, in their order, or two texts hashed on the way have one digest (or one has the digest
that a chain begins with). -/
theorem records_of_hash (hsha : ∀ text, (sha256 text).length = 64) {file upTo shown : List (List Char)}
    (hfile : verifyChain sha256 file = some .intact) (hupTo : upTo <+: file)
    (hshown : verifyChain sha256 shown = some .intact)
    (hhash : lastHash (.str genesis) shown = lastHash (.str genesis) upTo) :
    (recordTexts shown = recordTexts upTo ∧ (nonblank shown).length = (nonblank upTo).length) ∨
      (lineChain sha256).Collide (recordTexts shown) (recordTexts file) := by
  obtain ⟨rest, rfl⟩ := hupTo
  obtain ⟨hupTo, hcount⟩ := lastHash_of_verifyChain (verifyFrom_append hfile)
  obtain ⟨hshown, hcount'⟩ := lastHash_of_verifyChain hshown
  rw [hshown, hupTo] at hhash
  -- every digest of the chain has one length, so the text behind it is told apart from it
  have hjoin (d e : String) (x y : List Char) (hd : d.length = 64) (he : e.length = 64)
      (h : d.toList ++ x = e.toList ++ y) : d = e ∧ x = y := by
    obtain ⟨hleft, hright⟩ := List.append_inj h (by rw [String.length_toList, String.length_toList, hd, he])
    exact ⟨String.toList_inj.mp hleft, hright⟩
  rcases @HashChain.items_of_head _ _ _ (lineChain sha256) (fun d => d.length = 64) length_genesis hsha hjoin _ _
    (Value.str.inj hhash) with heq | hcollide
  · exact .inl ⟨heq, by rw [← hcount, ← hcount', heq]⟩
  · refine .inr ?_
    have hmore : recordTexts (upTo ++ rest) = recordTexts upTo ++ recordTexts rest := by
      rw [recordTexts, nonblank, List.filter_append, List.filterMap_append]
      rfl
    have happend := hcollide.append [] (recordTexts rest)
    rwa [List.append_nil, ← hmore] at happend

/-! ### A short file -/

/-- A digest of 64 characters that tells the length of its text, up to ten. -/
def paddedHash (text : List Char) : String := String.ofList (List.replicate 64 (Nat.digitChar (text.length % 10)))

theorem length_paddedHash (text : List Char) : (paddedHash text).length = 64 := by
  unfold paddedHash
  exact String.length_ofList.trans List.length_replicate

def restartedFile : List (List Char) := fileLines ((restarted.foldl (Writer.next paddedHash) .fresh).files 1)

/-- The first line of the file of a process that was started twice. -/
theorem records_of_hash_restarted :
    (recordTexts (restartedFile.take 1) = recordTexts (restartedFile.take 1) ∧
        (nonblank (restartedFile.take 1)).length = (nonblank (restartedFile.take 1)).length) ∨
      (lineChain paddedHash).Collide (recordTexts (restartedFile.take 1)) (recordTexts restartedFile) := by
  have hkeeps : Meets (Writer.next paddedHash) KeepsLines .fresh restarted := by decide +kernel
  have hfile : verifyChain paddedHash restartedFile = some .intact := (audit_files_verify hkeeps.run 1).1
  have hshown : ∀ lines, verifyChain paddedHash lines = some .intact →
      verifyChain paddedHash (lines.take 1) = some .intact := by
    intro lines h
    rw [← List.take_append_drop 1 lines] at h
    exact verifyFrom_append h
  exact records_of_hash length_paddedHash hfile (List.take_prefix 1 restartedFile) (hshown _ hfile) rfl

end Akb.Audit
