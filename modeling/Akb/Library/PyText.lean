import Mathlib.Data.List.Basic
import Mathlib.Data.List.DropRight

/-! The parts of Python's `str` that the modelled code relies on. -/
namespace Akb.Library.PyText

/-- The characters of a text are looked through, not all characters. -/
instance decidableForallMem {P : Char → Prop} [DecidablePred P] (s : List Char) : Decidable (∀ c ∈ s, P c) :=
  List.decidableBAll P s

instance decidableForallHead {P : Char → Prop} [DecidablePred P] (o : Option Char) : Decidable (∀ c ∈ o, P c) :=
  Option.decidableForallMem o

instance decidableExistsMem {P : Char → Prop} [DecidablePred P] (s : List Char) : Decidable (∃ c ∈ s, P c) :=
  List.decidableBEx P s

/-- One instance by name for the texts of every module. -/
instance lawfulBEqText : LawfulBEq (List Char) := inferInstance

theorem isUpper_def (c : Char) : c.isUpper = decide (c.val ≥ 'A'.val ∧ c.val ≤ 'Z'.val) := rfl

theorem isLower_def (c : Char) : c.isLower = (decide (c.val ≥ 'a'.val) && decide (c.val ≤ 'z'.val)) := rfl

theorem isAlpha_def (c : Char) : c.isAlpha = (c.isUpper || c.isLower) := rfl

theorem val_toLower {c : Char} (h : c.isUpper) : c.toLower.val = c.val + ('a'.val - 'A'.val) := by
  have hc : c.val ≥ 'A'.val ∧ c.val ≤ 'Z'.val := by simpa [isUpper_def] using h
  exact congrArg Char.val (dif_pos hc)

theorem toLower_of_not_isUpper {c : Char} (h : c.isUpper = false) : c.toLower = c := by
  have hc : ¬ (c.val ≥ 'A'.val ∧ c.val ≤ 'Z'.val) := by simpa [isUpper_def] using h
  exact dif_neg hc

/-- `str.isspace` of one character, which is also what `\s` matches in `re`. -/
def isSpace (c : Char) : Bool :=
  let n := c.toNat
  (9 ≤ n && n ≤ 13) || (28 ≤ n && n ≤ 32) || n == 0x85 || n == 0xa0 || n == 0x1680 ||
    (0x2000 ≤ n && n ≤ 0x200a) || n == 0x2028 || n == 0x2029 || n == 0x202f || n == 0x205f || n == 0x3000

/-- `str.strip`. -/
def strip (s : List Char) : List Char := (s.reverse.dropWhile isSpace).reverse.dropWhile isSpace

/-- `str.rstrip`. -/
def rstrip (s : List Char) : List Char := s.rdropWhile isSpace

/-- The characters beyond ASCII whose upper case has ASCII letters in it. -/
def asciiUppercases : List (Char × List Char) :=
  [('\u00df', ['S', 'S']), ('\u0131', ['I']), ('\u0149', ['\u02bc', 'N']), ('\u017f', ['S']),
    ('\u01f0', ['J', '\u030c']), ('\u1e96', ['H', '\u0331']), ('\u1e97', ['T', '\u0308']),
    ('\u1e98', ['W', '\u030a']), ('\u1e99', ['Y', '\u030a']), ('\u1e9a', ['A', '\u02be']), ('\ufb00', ['F', 'F']),
    ('\ufb01', ['F', 'I']), ('\ufb02', ['F', 'L']), ('\ufb03', ['F', 'F', 'I']), ('\ufb04', ['F', 'F', 'L']),
    ('\ufb05', ['S', 'T']), ('\ufb06', ['S', 'T'])]

/-- `str.upper`, as far as the ASCII letters in its result go. -/
def upper (s : List Char) : List Char := s.flatMap (fun c => (asciiUppercases.lookup c).getD [c.toUpper])

/-- The characters beyond ASCII whose lower case has ASCII letters in it. -/
def asciiLowercases : List (Char × List Char) := [('\u0130', ['i', '\u0307']), ('\u212a', ['k'])]

/-- `str.lower`, as far as the ASCII letters in its result go. -/
def lower (s : List Char) : List Char := s.flatMap (fun c => (asciiLowercases.lookup c).getD [c.toLower])

/-- The blanks that `strip` takes off. -/
theorem strip_spec (s : List Char) : ∃ lead trail, s = lead ++ strip s ++ trail ∧ (∀ c ∈ lead, isSpace c) ∧
    ∀ c ∈ trail, isSpace c := by
  have htrail := List.takeWhile_append_dropWhile (p := isSpace) (l := s.reverse)
  have hlead := List.takeWhile_append_dropWhile (p := isSpace) (l := (s.reverse.dropWhile isSpace).reverse)
  refine ⟨(s.reverse.dropWhile isSpace).reverse.takeWhile isSpace, (s.reverse.takeWhile isSpace).reverse, ?_, ?_, ?_⟩
  · rw [strip, hlead, ← List.reverse_append, htrail, List.reverse_reverse]
  · exact fun c hc => List.all_eq_true.mp List.all_takeWhile c hc
  · exact fun c hc => List.all_eq_true.mp List.all_takeWhile c (List.mem_reverse.mp hc)

/-- What `strip` leaves stands behind the leading blanks. -/
theorem strip_prefix (s : List Char) : strip s <+: s.dropWhile isSpace := by
  obtain ⟨lead, trail, hs, hlead, -⟩ := strip_spec s
  have hdrop : s.dropWhile isSpace = (strip s ++ trail).dropWhile isSpace := by
    conv_lhs => rw [hs, List.append_assoc]
    exact List.dropWhile_append_of_pos hlead
  rw [hdrop]
  cases hstrip : strip s with
  | nil => exact List.nil_prefix
  | cons c rest =>
    have hc : isSpace c = false := by
      have hhead := List.head?_dropWhile_not isSpace (s.reverse.dropWhile isSpace).reverse
      rw [← strip, hstrip] at hhead
      exact hhead
    rw [List.cons_append, List.dropWhile_cons_of_neg (by simp [hc])]
    exact ⟨trail, rfl⟩

theorem strip_def (s : List Char) : strip s = (rstrip s).dropWhile isSpace := rfl

theorem rstrip_strip (s : List Char) : rstrip (strip s) = strip s := by
  rw [rstrip, List.rdropWhile_eq_self_iff]
  intro hne
  have hr : rstrip s ≠ [] := by
    intro hnil
    rw [strip_def, hnil] at hne
    exact hne rfl
  have hlast : (strip s).getLast hne = (rstrip s).getLast hr := (List.dropWhile_suffix isSpace).getLast hne
  rw [hlast]
  exact List.rdropWhile_last_not isSpace s hr

theorem strip_strip (s : List Char) : strip (strip s) = strip s := by
  rw [strip_def (strip s), rstrip_strip, strip_def, List.dropWhile_idempotent]

theorem head_of_strip {s : List Char} (h : strip s = s) : ∀ c ∈ s.head?, isSpace c = false := by
  intro c hc
  have hhead := List.head?_dropWhile_not isSpace (rstrip s)
  rw [← strip_def, h, Option.mem_def.mp hc] at hhead
  exact hhead

theorem last_of_strip {s : List Char} (h : strip s = s) : ∀ c ∈ s.getLast?, isSpace c = false := by
  intro c hc
  have hr := rstrip_strip s
  rw [h, rstrip, List.rdropWhile_eq_self_iff] at hr
  obtain ⟨hne, rfl⟩ := List.mem_getLast?_eq_getLast hc
  simpa using hr hne

/-- A text with no blank at either end is what `strip` leaves of it. -/
theorem strip_eq_self {s : List Char} (hhead : ∀ c ∈ s.head?, isSpace c = false)
    (hlast : ∀ c ∈ s.getLast?, isSpace c = false) : strip s = s := by
  have hr : rstrip s = s := by
    rw [rstrip, List.rdropWhile_eq_self_iff]
    intro hne
    simpa using hlast _ (List.getLast_mem_getLast? hne)
  rw [strip_def, hr]
  cases s with
  | nil => rfl
  | cons c s => exact List.dropWhile_cons_of_neg (by simp [hhead c rfl])

theorem rstrip_append_blanks {trail : List Char} (h : ∀ c ∈ trail, isSpace c) (s : List Char) :
    rstrip (s ++ trail) = rstrip s := by
  rw [rstrip, List.rdropWhile, List.reverse_append, List.dropWhile_append_of_pos fun c hc => h c (List.mem_reverse.mp hc)]
  rfl

theorem rstrip_append {s t : List Char} (h : rstrip t = t) (hne : t ≠ []) : rstrip (s ++ t) = s ++ t := by
  rw [rstrip, List.rdropWhile_eq_self_iff] at h ⊢
  intro hst
  rw [List.getLast_append_of_ne_nil hst hne]
  exact h hne

/-- Blanks around a stripped text come off again. -/
theorem strip_blanks {lead trail : List Char} (hlead : ∀ c ∈ lead, isSpace c) (htrail : ∀ c ∈ trail, isSpace c)
    (s : List Char) : strip (lead ++ strip s ++ trail) = strip s := by
  rw [strip_def, rstrip_append_blanks htrail]
  by_cases hs : strip s = []
  · rw [hs, List.append_nil, ← List.nil_append lead, rstrip_append_blanks hlead]
    rfl
  · rw [rstrip_append (rstrip_strip s) hs, List.dropWhile_append_of_pos hlead, strip_def, List.dropWhile_idempotent]

theorem lower_append (s t : List Char) : lower (s ++ t) = lower s ++ lower t := List.flatMap_append

theorem upper_append (s t : List Char) : upper (s ++ t) = upper s ++ upper t := List.flatMap_append

theorem upper_prefix {s t : List Char} (h : s <+: t) : upper s <+: upper t := by
  obtain ⟨rest, rfl⟩ := h
  rw [upper_append]
  exact List.prefix_append _ _

end Akb.Library.PyText

/-! Texts as segments between slashes. -/
namespace Akb.Library.Segments

/-- `s.split("/")`. -/
def split (s : List Char) : List (List Char) := s.splitOn '/'

/-- `"/".join(segments)`. -/
def join (segments : List (List Char)) : List Char := ['/'].intercalate segments

theorem join_split (s : List Char) : join (split s) = s := List.intercalate_splitOn '/'

theorem split_inj {s t : List Char} (h : split s = split t) : s = t := by
  rw [← join_split s, h, join_split]

theorem split_ne_nil (s : List Char) : split s ≠ [] := List.splitOn_ne_nil '/' s

theorem split_append (s t : List Char) : split (s ++ '/' :: t) = split s ++ split t :=
  List.splitOn_append_cons_self s t

theorem split_of_notMem {s : List Char} (h : '/' ∉ s) : split s = [s] := List.splitOn_eq_singleton h

theorem split_join {segments : List (List Char)} (hne : segments ≠ []) (h : ∀ s ∈ segments, '/' ∉ s) :
    split (join segments) = segments := List.splitOn_intercalate '/' h hne

@[simp] theorem join_singleton (s : List Char) : join [s] = s := List.intercalate_singleton

theorem join_cons (s : List Char) {segments : List (List Char)} (hne : segments ≠ []) :
    join (s :: segments) = s ++ '/' :: join segments := by
  cases segments with
  | nil => exact absurd rfl hne
  | cons t segments => simp [join, List.intercalate_cons_cons]

theorem join_append {a b : List (List Char)} (ha : a ≠ []) (hb : b ≠ []) : join (a ++ b) = join a ++ '/' :: join b := by
  induction a with
  | nil => exact absurd rfl ha
  | cons s a ih =>
    cases a with
    | nil => rw [List.singleton_append, join_cons s hb, join_singleton]
    | cons t a =>
      have hrest := ih (List.cons_ne_nil t a)
      rw [List.cons_append, join_cons s (by simp), hrest, join_cons s (List.cons_ne_nil t a), List.append_assoc]
      rfl

theorem notMem_of_mem_splitOn {sep : Char} {s seg : List Char} (h : seg ∈ s.splitOn sep) : sep ∉ seg := by
  induction s generalizing seg with
  | nil =>
    rw [List.mem_singleton.mp h]
    exact List.not_mem_nil
  | cons c s ih =>
    rw [List.splitOn_cons_eq_if_modifyHead] at h
    split at h
    · rcases List.mem_cons.mp h with rfl | h
      · exact List.not_mem_nil
      · exact ih h
    · rename_i hc
      obtain ⟨t, rest, ht⟩ := List.exists_cons_of_ne_nil (List.splitOn_ne_nil sep s)
      have hsplit : s.splitOn sep = t :: rest := ht
      rw [hsplit, List.modifyHead_cons] at h
      rcases List.mem_cons.mp h with rfl | h
      · intro hm
        rcases List.mem_cons.mp hm with heq | hm
        · exact hc (by simp [← heq])
        · exact ih (ht ▸ List.mem_cons_self) hm
      · exact ih (ht ▸ List.mem_cons_of_mem _ h)

theorem slash_of_mem_split {s seg : List Char} (h : seg ∈ split s) : '/' ∉ seg := notMem_of_mem_splitOn h

theorem mem_join {segments : List (List Char)} {c : Char} (h : c ∈ join segments) :
    c = '/' ∨ ∃ seg ∈ segments, c ∈ seg := by
  induction segments with
  | nil => cases h
  | cons s segments ih =>
    cases segments with
    | nil => exact Or.inr ⟨s, List.mem_cons_self, by simpa using h⟩
    | cons t segments =>
      rw [join_cons s (List.cons_ne_nil t segments)] at h
      rcases List.mem_append.mp h with h | h
      · exact Or.inr ⟨s, List.mem_cons_self, h⟩
      rcases List.mem_cons.mp h with h | h
      · exact Or.inl h
      · exact (ih h).imp_right fun ⟨seg, hm, hc⟩ => ⟨seg, List.mem_cons_of_mem _ hm, hc⟩

theorem mem_of_mem_split {s seg : List Char} (h : seg ∈ split s) {c : Char} (hc : c ∈ seg) : c ∈ s := by
  obtain ⟨a, b, hab⟩ := List.append_of_mem h
  have hs := join_split s
  rw [hab] at hs
  by_cases ha : a = []
  · subst ha
    by_cases hb : b = []
    · subst hb
      rw [← hs]
      simpa using hc
    · rw [← hs, List.nil_append, join_cons seg hb]
      exact List.mem_append_left _ hc
  · rw [← hs, join_append ha (List.cons_ne_nil _ _)]
    refine List.mem_append_right _ (List.mem_cons_of_mem _ ?_)
    by_cases hb : b = []
    · subst hb
      simpa using hc
    · rw [join_cons seg hb]
      exact List.mem_append_left _ hc

end Akb.Library.Segments

/-! Taking the elements of one kind off both ends of a list. -/
namespace Akb.Library.Stripping

variable {α : Type} {p q : α → Bool}

/-- Neither end of `s` is of the kind `p`. -/
structure Clean (p : α → Bool) (s : List α) : Prop where
  head : ∀ c ∈ s.head?, p c = false
  last : ∀ c ∈ s.getLast?, p c = false

def strip (p : α → Bool) (s : List α) : List α := ((s.dropWhile p).reverse.dropWhile p).reverse

theorem Clean.nil : Clean p ([] : List α) := ⟨by simp, by simp⟩

theorem Clean.reverse {s : List α} (h : Clean p s) : Clean p s.reverse :=
  ⟨by simpa using h.last, by simpa using h.head⟩

theorem Clean.mono {s : List α} (h : Clean q s) (hpq : ∀ c, p c → q c) : Clean p s := by
  refine ⟨fun c hc => ?_, fun c hc => ?_⟩
  · exact Bool.eq_false_iff.mpr fun hp => Bool.false_ne_true ((h.head c hc).symm.trans (hpq c hp))
  · exact Bool.eq_false_iff.mpr fun hp => Bool.false_ne_true ((h.last c hc).symm.trans (hpq c hp))

/-- Elements of another kind around a clean list keep its ends clean. -/
theorem Clean.around {lead s trail : List α} (h : Clean p s) (hlead : ∀ c ∈ lead, p c = false)
    (htrail : ∀ c ∈ trail, p c = false) : Clean p (lead ++ s ++ trail) := by
  refine ⟨fun c hc => ?_, fun c hc => ?_⟩
  · cases lead with
    | cons d lead =>
      rw [List.cons_append, List.cons_append, List.head?_cons, Option.mem_some_iff] at hc
      exact hlead c (hc ▸ List.mem_cons_self)
    | nil =>
      cases s with
      | cons d s => exact h.head c hc
      | nil => exact htrail c (List.mem_of_head? hc)
  · rcases List.eq_nil_or_concat trail with rfl | ⟨trail, d, rfl⟩
    · rcases List.eq_nil_or_concat s with rfl | ⟨s, d, rfl⟩
      · exact hlead c (List.mem_of_getLast? (by simpa using hc))
      · refine h.last c ?_
        rw [List.append_nil, List.getLast?_append_of_ne_nil _ (by simp)] at hc
        exact hc
    · rw [List.getLast?_append_of_ne_nil _ (by simp)] at hc
      exact htrail c (List.mem_of_getLast? hc)

theorem dropWhile_append_clean {lead s : List α} (hlead : ∀ c ∈ lead, p c) (hs : ∀ c ∈ s.head?, p c = false) :
    (lead ++ s).dropWhile p = s := by
  rw [List.dropWhile_append_of_pos hlead]
  cases s with
  | nil => rfl
  | cons c s => exact List.dropWhile_cons_of_neg (by simp [hs c rfl])

/-- What is left when only elements of the kind stand around a clean list. -/
theorem strip_of_clean {lead s trail : List α} (hlead : ∀ c ∈ lead, p c) (hs : Clean p s)
    (htrail : ∀ c ∈ trail, p c) : strip p (lead ++ s ++ trail) = s := by
  by_cases hnil : s = []
  · subst hnil
    have hall : ∀ c ∈ lead ++ [] ++ trail, p c := by
      intro c hc
      rcases List.mem_append.mp hc with hc | hc
      · exact hlead c (by simpa using hc)
      · exact htrail c hc
    rw [strip, List.dropWhile_eq_nil_iff.mpr hall]
    rfl
  · have hhead : ∀ c ∈ (s ++ trail).head?, p c = false := by
      rw [List.head?_append_of_ne_nil s hnil]
      exact hs.head
    rw [strip, List.append_assoc, dropWhile_append_clean hlead hhead, List.reverse_append,
      dropWhile_append_clean (fun c hc => htrail c (List.mem_reverse.mp hc)) hs.reverse.head, List.reverse_reverse]

/-- The elements that `strip` takes off, and what it leaves. -/
theorem strip_spec (p : α → Bool) (s : List α) : ∃ lead trail, s = lead ++ strip p s ++ trail ∧
    (∀ c ∈ lead, p c) ∧ (∀ c ∈ trail, p c) ∧ Clean p (strip p s) := by
  have hlead := List.takeWhile_append_dropWhile (p := p) (l := s)
  have htrail := List.takeWhile_append_dropWhile (p := p) (l := (s.dropWhile p).reverse)
  have hsplit : s.dropWhile p = strip p s ++ ((s.dropWhile p).reverse.takeWhile p).reverse := by
    rw [strip, ← List.reverse_append, htrail, List.reverse_reverse]
  refine ⟨s.takeWhile p, ((s.dropWhile p).reverse.takeWhile p).reverse, ?_, ?_, ?_, ?_, ?_⟩
  · rw [List.append_assoc, ← hsplit, hlead]
  · exact fun c hc => List.all_eq_true.mp List.all_takeWhile c hc
  · exact fun c hc => List.all_eq_true.mp List.all_takeWhile c (List.mem_reverse.mp hc)
  · intro c hc
    have hdrop := List.head?_dropWhile_not p s
    rw [hsplit] at hdrop
    cases hstrip : strip p s with
    | nil =>
      rw [hstrip] at hc
      cases hc
    | cons d rest =>
      rw [hstrip] at hc hdrop
      cases hc
      simpa using hdrop
  · intro c hc
    have hdrop := List.head?_dropWhile_not p (s.dropWhile p).reverse
    rw [strip, List.getLast?_reverse] at hc
    rw [Option.mem_def.mp hc] at hdrop
    simpa using hdrop

/-- Whatever stands around a list of the kind comes off with its own ends. -/
theorem strip_around {a b : List α} (ha : ∀ c ∈ a, p c) (hb : ∀ c ∈ b, p c) (s : List α) :
    strip p (a ++ s ++ b) = strip p s := by
  obtain ⟨lead, trail, hs, hlead, htrail, hclean⟩ := strip_spec p s
  have hall : a ++ s ++ b = (a ++ lead) ++ strip p s ++ (trail ++ b) := by
    conv_lhs => rw [hs]
    simp only [List.append_assoc]
  rw [hall]
  refine strip_of_clean (fun c hc => ?_) hclean (fun c hc => ?_)
  · exact (List.mem_append.mp hc).elim (ha c) (hlead c)
  · exact (List.mem_append.mp hc).elim (htrail c) (hb c)

/-- It does not matter which end is stripped first. -/
theorem strip_reverse (s : List α) : strip p s.reverse = (strip p s).reverse := by
  obtain ⟨lead, trail, hs, hlead, htrail, hclean⟩ := strip_spec p s
  have hrev : s.reverse = trail.reverse ++ (strip p s).reverse ++ lead.reverse := by
    conv_lhs => rw [hs]
    simp only [List.reverse_append, List.append_assoc]
  rw [hrev]
  exact strip_of_clean (fun c hc => htrail c (List.mem_reverse.mp hc)) hclean.reverse
    fun c hc => hlead c (List.mem_reverse.mp hc)

end Akb.Library.Stripping
