import Akb.Library.JsonReader

/-! What was written reads back, and is one line. -/
namespace Akb.Library.Json

private theorem readUnicode_control {n : Nat} (h : n < 32) (rest : List Char) :
    readUnicode ('0' :: '0' :: hexDigit (n / 16) :: hexDigit (n % 16) :: rest) = some (Char.ofNat n, rest) := by
  have hdigits : ∀ n < 32, (['0', '0', hexDigit (n / 16), hexDigit (n % 16)].map Char.toLower).all
      (· ∈ "0123456789abcdef".toList) ∧
      (['0', '0', hexDigit (n / 16), hexDigit (n % 16)].map Char.toLower).foldl (fun m e => 16 * m + hexValue e) 0 =
        n := by decide
  have hhex : hex4 ('0' :: '0' :: hexDigit (n / 16) :: hexDigit (n % 16) :: rest) = some (n, rest) := by
    rw [hex4, if_pos (hdigits n h).1, (hdigits n h).2]
  rw [readUnicode, hhex]
  simp only [Option.bind_eq_bind, Option.bind_some]
  rw [if_neg (by omega), if_neg (by omega)]

private theorem readChar_escapeChar (c : Char) (rest : List Char) :
    readChar (escapeChar c ++ rest) = some (some c, rest) := by
  unfold escapeChar
  split
  · subst_vars; rfl
  split
  · subst_vars; rfl
  split
  · subst_vars; rfl
  split
  · subst_vars; rfl
  split
  · subst_vars; rfl
  split
  · subst_vars; rfl
  split
  · subst_vars; rfl
  split
  · rename_i hcontrol
    simp only [List.cons_append, List.nil_append, readChar, readUnicode_control hcontrol, Option.map_some,
      Char.ofNat_toNat]
  · rename_i hquote hslash _ _ _ _ _ hcontrol
    simp only [List.cons_append, List.nil_append]
    unfold readChar
    split <;> simp_all

private theorem escapeChar_ne_nil (c : Char) : escapeChar c ≠ [] := by
  intro h
  have hread := readChar_escapeChar c []
  rw [h] at hread
  cases hread

private theorem readChars_escaped (cs rest : List Char) {fuel : Nat} (h : (cs.flatMap escapeChar).length < fuel) :
    readChars fuel (cs.flatMap escapeChar ++ '"' :: rest) = some (cs, rest) := by
  induction cs generalizing fuel with
  | nil =>
    obtain ⟨fuel, rfl⟩ := Nat.exists_eq_add_one_of_ne_zero (Nat.ne_of_gt h)
    rfl
  | cons c cs ih =>
    obtain ⟨fuel, rfl⟩ := Nat.exists_eq_add_one_of_ne_zero (Nat.ne_of_gt (Nat.zero_lt_of_lt h))
    have hpos : 0 < (escapeChar c).length := List.length_pos_of_ne_nil (escapeChar_ne_nil c)
    rw [List.flatMap_cons, List.length_append] at h
    rw [List.flatMap_cons, List.append_assoc, readChars, readChar_escapeChar]
    simp only [ih (show (cs.flatMap escapeChar).length < fuel by omega), Option.map_some]

private theorem readString_escaped (s : String) (rest : List Char) :
    readString (s.toList.flatMap escapeChar ++ '"' :: rest) = some (s, rest) := by
  have hlength : (s.toList.flatMap escapeChar).length < (s.toList.flatMap escapeChar ++ '"' :: rest).length := by
    simp only [List.length_append, List.length_cons]
    omega
  rw [readString, readChars_escaped _ _ hlength, Option.map_some, String.ofList_toList]

private theorem readNat_toDigits (n : Nat) : readNat (Nat.toDigits 10 n) = some n := by
  have hall : (Nat.toDigits 10 n).all Char.isDigit := List.all_eq_true.mpr fun c hc =>
    Nat.isDigit_of_mem_toDigits (by decide) (by decide) hc
  simp only [readNat, Nat.ofDigitChars_ten_toDigits, hall, and_self, if_true]

private theorem readInt_renderInt (n : Int) : readInt (renderInt n) = some n := by
  unfold renderInt
  split
  · rename_i hneg
    rw [readInt, readNat_toDigits, Option.map_some]
    congr 1
    omega
  · rename_i hpos
    obtain ⟨c, t, htext, hc⟩ := head_toDigits n.natAbs []
    rw [List.append_nil] at htext
    have hread := readNat_toDigits n.natAbs
    rw [htext] at hread ⊢
    unfold readInt
    split
    · rename_i heq
      obtain ⟨rfl, -⟩ := List.cons.inj heq
      exact absurd hc (by decide)
    · rw [hread, Option.map_some]
      congr 1
      omega

/-- The text of a value that is no text, list or dictionary. -/
private def Atomic (text : List Char) : Prop :=
  (∀ c ∈ text, isDelimiter c = false) ∧ ∃ c t, text = c :: t ∧ c ∉ ['"', '[', '{']

private theorem digit_plain {c : Char} (h : c.isDigit) : isDelimiter c = false ∧ c ∉ ['"', '[', '{'] := by
  have hmarks : ∀ c ∈ [' ', '\t', '\n', '\r', ',', ']', '}', '"', '[', '{'], c.isDigit = false := by decide
  constructor
  · rw [Bool.eq_false_iff]
    intro hc
    simp only [isDelimiter, isJsonSpace, Bool.or_eq_true, decide_eq_true_eq] at hc
    rw [hmarks c (by simp only [List.mem_cons] at hc ⊢; tauto)] at h
    cases h
  · intro hc
    rw [hmarks c (by simp only [List.mem_cons] at hc ⊢; tauto)] at h
    cases h

private theorem numberChar_plain {c : Char} (h : isNumberChar c) : isDelimiter c = false ∧ c ∉ ['"', '[', '{'] := by
  simp only [isNumberChar, Bool.or_eq_true, decide_eq_true_eq] at h
  rcases h with hdigit | hsign
  · exact digit_plain hdigit
  · have hall : ∀ c ∈ ['.', 'e', 'E', '+', '-'], isDelimiter c = false ∧ c ∉ ['"', '[', '{'] := by decide
    exact hall c hsign

private theorem atomic_of_numberChars {text : List Char} (hne : text ≠ []) (h : ∀ c ∈ text, isNumberChar c) :
    Atomic text := by
  cases text with
  | nil => exact absurd rfl hne
  | cons c t => exact ⟨fun d hd => (numberChar_plain (h d hd)).1, c, t, rfl, (numberChar_plain (h c List.mem_cons_self)).2⟩

private theorem atomic_renderInt (n : Int) : Atomic (renderInt n) := by
  have hdigits : ∀ c ∈ Nat.toDigits 10 n.natAbs, isNumberChar c := fun c hc => by
    simp [isNumberChar, Nat.isDigit_of_mem_toDigits (by decide) (by decide) hc]
  unfold renderInt
  split
  · refine atomic_of_numberChars (List.cons_ne_nil _ _) fun c hc => ?_
    rcases List.mem_cons.mp hc with rfl | hc
    · decide
    · exact hdigits c hc
  · exact atomic_of_numberChars Nat.toDigits_ne_nil hdigits

private theorem atomic_float (x : FloatRepr) : Atomic x.text := by
  have hnumber := x.shape.2
  unfold isNumber at hnumber
  rcases Bool.or_eq_true_iff.mp hnumber with hword | hliteral
  · have hall : ∀ text ∈ ["NaN", "Infinity", "-Infinity"].map String.toList,
        (∀ c ∈ text, isDelimiter c = false) ∧ ∀ c ∈ text.head?, c ∉ ['"', '[', '{'] := by decide
    have hsome : ∀ text ∈ ["NaN", "Infinity", "-Infinity"].map String.toList, text ≠ [] := by decide
    obtain ⟨hplain, hhead⟩ := hall _ (of_decide_eq_true hword)
    obtain ⟨c, t, ht⟩ := List.exists_cons_of_ne_nil (hsome _ (of_decide_eq_true hword))
    exact ⟨hplain, c, t, ht, hhead c (by rw [ht]; rfl)⟩
  · obtain ⟨hchars, hrest⟩ := Bool.and_eq_true_iff.mp hliteral
    refine atomic_of_numberChars (fun hnil => ?_) (List.all_eq_true.mp hchars)
    rw [hnil] at hrest
    revert hrest
    decide

private theorem readAtom_float (x : FloatRepr) : readAtom x.text = some (.float x) := by
  have hwords : ∀ word ∈ ["null", "true", "false"].map String.toList, isNumber word = false := by decide
  have hword (word : List Char) (h : word ∈ ["null", "true", "false"].map String.toList) : x.text ≠ word := by
    intro he
    have hnumber := x.shape.2
    rw [he, hwords word h] at hnumber
    cases hnumber
  obtain ⟨text, hint, hnumber⟩ := x
  rw [readAtom, if_neg (hword _ (by simp)), if_neg (hword _ (by simp)), if_neg (hword _ (by simp))]
  split
  · rename_i n h
    rw [hint] at h
    cases h
  · rw [dif_pos hnumber]

private theorem readAtom_int (n : Int) : readAtom (renderInt n) = some (.int n) := by
  have hwords : ∀ word ∈ ["null", "true", "false"].map String.toList, readInt word = none := by decide
  have hword (word : List Char) (h : word ∈ ["null", "true", "false"].map String.toList) : renderInt n ≠ word := by
    intro he
    have hread := readInt_renderInt n
    rw [he, hwords word h] at hread
    cases hread
  rw [readAtom, if_neg (hword _ (by simp)), if_neg (hword _ (by simp)), if_neg (hword _ (by simp))]
  split
  · rename_i m h
    rw [readInt_renderInt] at h
    cases h
    rfl
  · rename_i h
    rw [readInt_renderInt] at h
    cases h

/-- What may stand behind a value. -/
def Ends (rest : List Char) : Prop := ∀ c ∈ rest.head?, isDelimiter c

private theorem readValue_atomic {text rest : List Char} {v : Value} (htext : Atomic text) (hread : readAtom text = some v)
    (hrest : Ends rest) (fuel : Nat) : readValue (fuel + 1) (text ++ rest) = some (v, rest) := by
  obtain ⟨hplain, c, t, rfl, hc⟩ := htext
  have hspace : isJsonSpace c = false := by
    have hdelimiter := hplain c List.mem_cons_self
    rw [isDelimiter, Bool.or_eq_false_iff] at hdelimiter
    exact hdelimiter.1
  have htake : (c :: t ++ rest).takeWhile (!isDelimiter ·) = c :: t := by
    rw [List.takeWhile_append_of_pos (fun d hd => by simp [hplain d hd])]
    cases rest with
    | nil => rw [List.takeWhile_nil, List.append_nil]
    | cons d rest => rw [List.takeWhile_cons_of_neg (by simp [hrest d rfl]), List.append_nil]
  have hdrop : (c :: t ++ rest).dropWhile (!isDelimiter ·) = rest := by
    rw [List.dropWhile_append_of_pos (fun d hd => by simp [hplain d hd])]
    cases rest with
    | nil => rfl
    | cons d rest => rw [List.dropWhile_cons_of_neg (by simp [hrest d rfl])]
  rw [List.cons_append] at htake hdrop
  rw [readValue, List.cons_append, List.dropWhile_cons_of_neg (by simp [hspace])]
  split
  · rename_i heq
    exact absurd (List.cons.inj heq).1 (fun h => hc (by simp [h]))
  · rename_i heq
    exact absurd (List.cons.inj heq).1 (fun h => hc (by simp [h]))
  · rename_i heq
    exact absurd (List.cons.inj heq).1 (fun h => hc (by simp [h]))
  · rw [htake, hread, Option.map_some, hdrop]

private theorem render_head {pad : Nat} {v : Value} {t : List Char} (h : v.render pad = some t) :
    ∃ c s, t = c :: s ∧ isDelimiter c = false := by
  have hatomic {text : List Char} (ha : Atomic text) : ∃ c s, text = c :: s ∧ isDelimiter c = false := by
    obtain ⟨hplain, c, s, rfl, -⟩ := ha
    exact ⟨c, s, rfl, hplain c List.mem_cons_self⟩
  cases v with
  | null =>
    cases h
    exact ⟨_, _, rfl, by decide⟩
  | bool b =>
    cases b <;> cases h <;> exact ⟨_, _, rfl, by decide⟩
  | int n =>
    cases h
    exact hatomic (atomic_renderInt n)
  | float x =>
    cases h
    exact hatomic (atomic_float x)
  | str s =>
    cases h
    exact ⟨_, _, rfl, by decide⟩
  | list items =>
    obtain ⟨s, -, rfl⟩ := Option.map_eq_some_iff.mp h
    exact ⟨_, _, rfl, by decide⟩
  | dict fields =>
    obtain ⟨s, -, rfl⟩ := Option.map_eq_some_iff.mp h
    exact ⟨_, _, rfl, by decide⟩
  | other => cases h

private theorem dropWhile_pad (pad : Nat) (s : List Char) :
    (List.replicate pad ' ' ++ s).dropWhile isJsonSpace = s.dropWhile isJsonSpace :=
  List.dropWhile_append_of_pos fun c hc => by rw [List.eq_of_mem_replicate hc]; decide

private theorem readValue_pad (fuel pad : Nat) (s : List Char) :
    readValue fuel (List.replicate pad ' ' ++ s) = readValue fuel s := by
  cases fuel with
  | zero => rfl
  | succ fuel => rw [readValue, readValue, dropWhile_pad]

private theorem readItems_pad (fuel pad : Nat) (s : List Char) :
    readItems fuel (List.replicate pad ' ' ++ s) = readItems fuel s := by
  cases fuel with
  | zero => rfl
  | succ fuel => rw [readItems, readItems, readValue_pad]

private theorem readFields_pad (fuel pad : Nat) (s : List Char) :
    readFields fuel (List.replicate pad ' ' ++ s) = readFields fuel s := by
  cases fuel with
  | zero => rfl
  | succ fuel => rw [readFields, readFields, dropWhile_pad]

theorem dictOf_of_nodup {pairs : List (String × Value)} (h : (pairs.map Prod.fst).Nodup) : dictOf pairs = pairs := by
  have hfold : ∀ (done rest : List (String × Value)), ((done ++ rest).map Prod.fst).Nodup →
      rest.foldl setField done = done ++ rest := by
    intro done rest
    induction rest generalizing done with
    | nil => simp
    | cons f rest ih =>
      intro hn
      have hnew : f.1 ∉ done.map Prod.fst := by
        rw [List.map_append, List.map_cons] at hn
        exact fun hf => List.disjoint_of_nodup_append hn hf List.mem_cons_self
      rw [List.foldl_cons, setField, if_neg hnew, ih _ (by simpa using hn), List.append_assoc, List.singleton_append]
  exact hfold [] pairs h

private theorem not_space {c : Char} (h : isDelimiter c = false) : isJsonSpace c = false := by
  rw [isDelimiter, Bool.or_eq_false_iff] at h
  exact h.1

private theorem renderItems_head {pad : Nat} {v : Value} {items : List Value} {t : List Char}
    (h : renderItems pad (v :: items) = some t) : ∃ c s, t = c :: s ∧ isDelimiter c = false := by
  have hhead {x y : List Char} (hx : v.render pad = some x) : ∃ c s, x ++ y = c :: s ∧ isDelimiter c = false := by
    obtain ⟨c, s, rfl, hc⟩ := render_head hx
    exact ⟨c, s ++ y, rfl, hc⟩
  cases items with
  | nil =>
    obtain ⟨x, hx, rfl⟩ := Option.map_eq_some_iff.mp h
    exact hhead hx
  | cons w items =>
    simp only [renderItems, Option.bind_eq_bind, Option.bind_eq_some_iff, Option.pure_def, Option.some.injEq] at h
    obtain ⟨x, hx, y, -, rfl⟩ := h
    rw [List.append_assoc]
    exact hhead hx

private theorem renderFields_head {pad : Nat} {f : String × Value} {fields : List (String × Value)} {t : List Char}
    (h : renderFields pad (f :: fields) = some t) : ∃ s, t = '"' :: s := by
  cases fields with
  | nil =>
    obtain ⟨x, -, rfl⟩ := Option.map_eq_some_iff.mp h
    exact ⟨_, rfl⟩
  | cons g fields =>
    simp only [renderFields, Option.bind_eq_bind, Option.bind_eq_some_iff, Option.pure_def, Option.some.injEq] at h
    obtain ⟨x, -, y, -, rfl⟩ := h
    exact ⟨_, rfl⟩

private theorem ends_of_delimiter {c : Char} (h : isDelimiter c) (s : List Char) : Ends (c :: s) := by
  intro d hd
  cases hd
  exact h

mutual
/-- A value that was written reads back, whatever follows it. -/
theorem readValue_render (pad : Nat) (v : Value) {t rest : List Char} {fuel : Nat} (h : v.render pad = some t)
    (hv : v.Distinct) (hrest : Ends rest) (hfuel : t.length < fuel) : readValue fuel (t ++ rest) = some (v, rest) := by
  obtain ⟨fuel, rfl⟩ := Nat.exists_eq_add_one_of_ne_zero (Nat.ne_of_gt (Nat.zero_lt_of_lt hfuel))
  cases v with
  | null =>
    cases h
    exact readValue_atomic ⟨by decide, _, _, rfl, by decide⟩ rfl hrest fuel
  | bool b =>
    cases b <;> cases h <;> exact readValue_atomic ⟨by decide, _, _, rfl, by decide⟩ rfl hrest fuel
  | int n =>
    cases h
    exact readValue_atomic (atomic_renderInt n) (readAtom_int n) hrest fuel
  | float x =>
    cases h
    exact readValue_atomic (atomic_float x) (readAtom_float x) hrest fuel
  | str s =>
    cases h
    rw [renderString, List.cons_append, List.append_assoc, readValue, List.dropWhile_cons_of_neg (by decide)]
    simp only [List.singleton_append, readString_escaped, Option.map_some]
  | list items =>
    obtain ⟨t, ht, rfl⟩ := Option.map_eq_some_iff.mp h
    rw [List.length_cons] at hfuel
    cases items with
    | nil =>
      cases ht
      rfl
    | cons w items =>
      have hread := @readItems_render pad (w :: items) _ rest fuel ht (List.cons_ne_nil _ _) hv (by omega)
      obtain ⟨c, s, rfl, hc⟩ := renderItems_head ht
      rw [List.cons_append] at hread
      rw [List.cons_append, readValue, List.dropWhile_cons_of_neg (by decide)]
      simp only [List.cons_append, List.dropWhile_cons_of_neg (show ¬ isJsonSpace c = true by simp [not_space hc])]
      split
      · rename_i heq
        obtain ⟨rfl, -⟩ := List.cons.inj heq
        cases hc
      · rw [hread, Option.map_some]
  | dict fields =>
    obtain ⟨t, ht, rfl⟩ := Option.map_eq_some_iff.mp h
    rw [List.length_cons] at hfuel
    cases fields with
    | nil =>
      cases ht
      rfl
    | cons f fields =>
      have hread := @readFields_render pad (f :: fields) _ rest fuel ht (List.cons_ne_nil _ _) hv.2
        (by omega)
      obtain ⟨s, rfl⟩ := renderFields_head ht
      rw [List.cons_append] at hread
      rw [List.cons_append, readValue, List.dropWhile_cons_of_neg (by decide)]
      simp only [List.cons_append, List.dropWhile_cons_of_neg (show ¬ isJsonSpace '"' = true by decide)]
      split
      · rename_i heq
        exact absurd (List.cons.inj heq).1 (by decide)
      · rw [hread, Option.map_some, dictOf_of_nodup hv.1]
  | other => cases h

theorem readItems_render (pad : Nat) (items : List Value) {t rest : List Char} {fuel : Nat}
    (h : renderItems pad items = some t) (hne : items ≠ []) (hv : DistinctItems items) (hfuel : t.length < fuel) :
    readItems fuel (t ++ rest) = some (items, rest) := by
  match items, hne with
  | [v], _ =>
    obtain ⟨x, hx, rfl⟩ := Option.map_eq_some_iff.mp h
    rw [List.length_append, List.length_singleton] at hfuel
    obtain ⟨fuel, rfl⟩ := Nat.exists_eq_add_one_of_ne_zero (show fuel ≠ 0 by omega)
    have hread := @readValue_render pad v _ (']' :: rest) fuel hx hv.1
      (ends_of_delimiter (by decide) rest) (by omega)
    rw [List.append_assoc, List.singleton_append, readItems, hread]
    rfl
  | v :: w :: items, _ =>
    simp only [renderItems, Option.bind_eq_bind, Option.bind_eq_some_iff, Option.pure_def, Option.some.injEq] at h
    obtain ⟨x, hx, y, hy, rfl⟩ := h
    simp only [List.length_append, separator, List.length_cons, List.length_replicate] at hfuel
    obtain ⟨fuel, rfl⟩ := Nat.exists_eq_add_one_of_ne_zero (show fuel ≠ 0 by omega)
    have hread := @readValue_render pad v _ (separator ',' pad ++ (y ++ rest)) fuel hx hv.1
      (ends_of_delimiter (by decide) _) (by omega)
    have hmore := @readItems_render pad (w :: items) _ rest fuel hy (List.cons_ne_nil _ _) hv.2 (by omega)
    rw [List.append_assoc, List.append_assoc, readItems, hread]
    simp only [Option.bind_eq_bind, Option.bind_some, separator, List.cons_append]
    rw [List.dropWhile_cons_of_neg (by decide)]
    simp only [readItems_pad, hmore, Option.map_some]

theorem readFields_render (pad : Nat) (fields : List (String × Value)) {t rest : List Char} {fuel : Nat}
    (h : renderFields pad fields = some t) (hne : fields ≠ []) (hv : DistinctFields fields) (hfuel : t.length < fuel) :
    readFields fuel (t ++ rest) = some (fields, rest) := by
  match fields, hne with
  | [(key, v)], _ =>
    obtain ⟨x, hx, rfl⟩ := Option.map_eq_some_iff.mp h
    simp only [List.length_append, List.length_cons, List.length_nil] at hfuel
    obtain ⟨fuel, rfl⟩ := Nat.exists_eq_add_one_of_ne_zero (show fuel ≠ 0 by omega)
    have hread := @readValue_render pad v _ ('}' :: rest) fuel hx hv.1
      (ends_of_delimiter (by decide) rest) (by omega)
    rw [readFields]
    simp only [renderString, List.append_assoc, List.cons_append, List.nil_append]
    rw [List.dropWhile_cons_of_neg (by decide)]
    simp only [readString_escaped, Option.bind_eq_bind, Option.bind_some, separator, List.cons_append]
    rw [List.dropWhile_cons_of_neg (by decide)]
    simp only [readValue_pad, hread, Option.bind_some]
    rfl
  | (key, v) :: f :: fields, _ =>
    simp only [renderFields, Option.bind_eq_bind, Option.bind_eq_some_iff, Option.pure_def, Option.some.injEq] at h
    obtain ⟨x, hx, y, hy, rfl⟩ := h
    simp only [List.length_append, separator, List.length_cons, List.length_replicate] at hfuel
    obtain ⟨fuel, rfl⟩ := Nat.exists_eq_add_one_of_ne_zero (show fuel ≠ 0 by omega)
    have hread := @readValue_render pad v _ (separator ',' pad ++ (y ++ rest)) fuel hx hv.1
      (ends_of_delimiter (by decide) _) (by omega)
    have hmore := @readFields_render pad (f :: fields) _ rest fuel hy (List.cons_ne_nil _ _) hv.2
      (by omega)
    rw [readFields]
    simp only [renderString, List.append_assoc, List.cons_append, List.nil_append]
    rw [List.dropWhile_cons_of_neg (by decide)]
    simp only [readString_escaped, Option.bind_eq_bind, Option.bind_some, separator, List.cons_append]
    rw [List.dropWhile_cons_of_neg (by decide)]
    simp only [separator, List.cons_append] at hread
    simp only [readValue_pad, hread, Option.bind_some]
    rw [List.dropWhile_cons_of_neg (by decide)]
    simp only [readFields_pad, hmore, Option.map_some]
end

/-- `json.loads(json.dumps(value))`. -/
theorem loads_render {pad : Nat} {v : Value} {t : List Char} (h : v.render pad = some t) (hv : v.Distinct) :
    loads t = some v := by
  have hread := @readValue_render pad v _ [] (t.length + 1) h hv (fun c hc => by cases hc)
    (Nat.lt_succ_self _)
  rw [List.append_nil] at hread
  rw [loads, hread]
  rfl

theorem renderFields_last {pad : Nat} {fields : List (String × Value)} {t : List Char}
    (h : renderFields pad fields = some t) : ∃ s, t = s ++ ['}'] := by
  induction fields generalizing t with
  | nil =>
    cases h
    exact ⟨[], rfl⟩
  | cons f fields ih =>
    obtain ⟨key, v⟩ := f
    cases fields with
    | nil =>
      obtain ⟨x, -, rfl⟩ := Option.map_eq_some_iff.mp h
      exact ⟨_, rfl⟩
    | cons g fields =>
      simp only [renderFields, Option.bind_eq_bind, Option.bind_eq_some_iff, Option.pure_def, Option.some.injEq] at h
      obtain ⟨x, -, y, hy, rfl⟩ := h
      obtain ⟨s, rfl⟩ := ih hy
      exact ⟨_, (List.append_assoc _ _ _).symm⟩

end Akb.Library.Json
