import Akb.Chunks.Splitter

/-! The size of a chunk: what a chunk begins with may push it over the limit. -/
namespace Akb.Chunks
open Akb.Library

/-- The paragraph goes behind the text at hand within the limit, or begins a text, or fits the limit behind the end of
the text that it carries over. -/
def FitsBehind (limit : Nat) (current para : Text) : Prop :=
  overfull limit current para → (PyText.strip (carried current ++ blankLine ++ para)).length ≤ limit

/-- Each paragraph fits behind the text that the loop has at hand when it comes to it. -/
def EachFits (limit : Nat) : Assembly → List Text → Prop
  | _, [] => True
  | s, para :: rest => FitsBehind limit s.current para ∧ EachFits limit (s.add [] limit para) rest

/-- No paragraph is too long behind what its chunk carries over; a text within the limit stays one chunk. -/
def Fits (limit : Nat) (content : Text) : Prop :=
  content.length ≤ limit ∨ EachFits limit ⟨[], [], 0⟩ (paragraphs limit content)

theorem length_strip_le (s : Text) : (PyText.strip s).length ≤ s.length := by
  obtain ⟨lead, trail, hs, -, -⟩ := PyText.strip_spec s
  have hlength := congrArg List.length hs
  simp only [List.length_append] at hlength
  omega

variable {sectionPath : Text} {limit : Nat}

/-- Without a header the whole size is for the body. -/
def textLimit (metadataHeader : Text) : Nat := if metadataHeader = [] then maxChunkSize else bodyBudget metadataHeader

/-- Paragraphs that leave room for the overlap and a blank line always fit. -/
theorem fits_of_short {content : Text} (h : ∀ para ∈ paragraphs limit content, overlap + para.length + 2 ≤ limit) :
    Fits limit content := by
  have heach (s : Assembly) {paras : List Text} (hparas : ∀ para ∈ paras, overlap + para.length + 2 ≤ limit) :
      EachFits limit s paras := by
    induction paras generalizing s with
    | nil => trivial
    | cons para paras ih =>
      rw [List.forall_mem_cons] at hparas
      refine ⟨fun _ => (length_strip_le _).trans ?_, ih _ hparas.2⟩
      have hcarried : (carried s.current).length ≤ overlap := by
        rw [carried, List.length_drop]
        omega
      simp only [List.length_append, blankLine, List.length_cons, List.length_nil]
      omega
  exact Or.inr (heach _ h)

end Akb.Chunks
