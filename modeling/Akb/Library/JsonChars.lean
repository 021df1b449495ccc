import Akb.Library.JsonRoundTrip

/-! The characters of a JSON text: nothing below the blank, and beyond ASCII what the texts within have. -/
namespace Akb.Library.Json

mutual
/-- The characters of the texts and keys within a value. -/
def Value.chars : Value → List Char
  | .str s => s.toList
  | .list items => itemChars items
  | .dict fields => fieldChars fields
  | _ => []

def itemChars : List Value → List Char
  | [] => []
  | v :: items => v.chars ++ itemChars items

def fieldChars : List (String × Value) → List Char
  | [] => []
  | (key, v) :: fields => key.toList ++ v.chars ++ fieldChars fields
end

/-- Every character of `t` is printable, or beyond ASCII and one of the letters. -/
def Shows (letters t : List Char) : Prop := ∀ d ∈ t, 32 ≤ d.toNat ∧ (128 ≤ d.toNat → d ∈ letters)

theorem Shows.mono {letters letters' t : List Char} (h : Shows letters t) (hl : letters ⊆ letters') : Shows letters' t :=
  fun d hd => ⟨(h d hd).1, fun hbig => hl ((h d hd).2 hbig)⟩

theorem Shows.append {letters s t : List Char} (hs : Shows letters s) (ht : Shows letters t) : Shows letters (s ++ t) :=
  fun d hd => (List.mem_append.mp hd).elim (hs d) (ht d)

theorem shows_ascii {t : List Char} (h : ∀ d ∈ t, 32 ≤ d.toNat ∧ d.toNat < 128) (letters : List Char) : Shows letters t :=
  fun d hd => ⟨(h d hd).1, fun hbig => absurd (h d hd).2 (Nat.not_lt.mpr hbig)⟩

theorem shows_escapeChar (c : Char) : Shows [c] (escapeChar c) := by
  have hhex : ∀ n < 16, 32 ≤ (hexDigit n).toNat ∧ (hexDigit n).toNat < 128 := by decide
  unfold escapeChar
  split
  · exact shows_ascii (by decide) _
  split
  · exact shows_ascii (by decide) _
  split
  · exact shows_ascii (by decide) _
  split
  · exact shows_ascii (by decide) _
  split
  · exact shows_ascii (by decide) _
  split
  · exact shows_ascii (by decide) _
  split
  · exact shows_ascii (by decide) _
  split
  · have hhigh := hhex (c.toNat / 16) (by omega)
    have hlow := hhex (c.toNat % 16) (by omega)
    have hmarks : ∀ d ∈ ['\\', 'u', '0', '0'], 32 ≤ d.toNat ∧ d.toNat < 128 := by decide
    refine shows_ascii (t := ['\\', 'u', '0', '0'] ++ [_, _]) (fun d hd => ?_) _
    rcases List.mem_append.mp hd with hd | hd
    · exact hmarks d hd
    · rcases List.mem_pair.mp hd with rfl | rfl
      · exact hhigh
      · exact hlow
  · intro d hd
    rw [List.mem_singleton.mp hd]
    exact ⟨by omega, fun _ => List.mem_singleton_self c⟩

theorem shows_renderString (s : String) : Shows s.toList (renderString s) := by
  have hquote : ∀ d ∈ ['"'], 32 ≤ d.toNat ∧ d.toNat < 128 := by decide
  refine Shows.append (s := ['"']) (shows_ascii hquote _) (Shows.append (fun d hd => ?_) (shows_ascii hquote _))
  obtain ⟨c, hc, hd⟩ := List.mem_flatMap.mp hd
  exact (shows_escapeChar c).mono (List.cons_subset.mpr ⟨hc, List.nil_subset _⟩) d hd

theorem shows_numberChars {t : List Char} (h : ∀ d ∈ t, isNumberChar d) (letters : List Char) : Shows letters t := by
  refine shows_ascii (fun d hd => ?_) letters
  have hd := h d hd
  rcases Bool.or_eq_true_iff.mp hd with hdigit | hsign
  · have hrange : 48 ≤ d.toNat ∧ d.toNat ≤ 57 := by
      have hnine : '0'.toNat = 48 ∧ '9'.toNat = 57 := by decide
      have hval (c : Char) : c.val.toNat = c.toNat := rfl
      simpa only [Char.isDigit, Bool.and_eq_true, decide_eq_true_eq, ge_iff_le, UInt32.le_iff_toNat_le, hval, hnine]
        using hdigit
    omega
  · have hall : ∀ c ∈ ['.', 'e', 'E', '+', '-'], 32 ≤ c.toNat ∧ c.toNat < 128 := by decide
    exact hall d (of_decide_eq_true hsign)

theorem shows_renderInt (n : Int) (letters : List Char) : Shows letters (renderInt n) := by
  have hdigits : ∀ c ∈ Nat.toDigits 10 n.natAbs, isNumberChar c := fun c hc => by
    simp [isNumberChar, Nat.isDigit_of_mem_toDigits (by decide) (by decide) hc]
  refine shows_numberChars (fun d hd => ?_) letters
  unfold renderInt at hd
  split at hd
  · rcases List.mem_cons.mp hd with rfl | hd
    · decide
    · exact hdigits d hd
  · exact hdigits d hd

theorem shows_float (x : FloatRepr) (letters : List Char) : Shows letters x.text := by
  have hnumber := x.shape.2
  unfold isNumber at hnumber
  rcases Bool.or_eq_true_iff.mp hnumber with hword | hliteral
  · have hall : ∀ text ∈ ["NaN", "Infinity", "-Infinity"].map String.toList,
        ∀ d ∈ text, 32 ≤ d.toNat ∧ d.toNat < 128 := by decide
    exact shows_ascii (hall _ (of_decide_eq_true hword)) letters
  · exact shows_numberChars (List.all_eq_true.mp (Bool.and_eq_true_iff.mp hliteral).1) letters

theorem shows_separator {c : Char} (hc : 32 ≤ c.toNat ∧ c.toNat < 128) (pad : Nat) (letters : List Char) :
    Shows letters (separator c pad) := by
  have hblank : 32 ≤ ' '.toNat ∧ ' '.toNat < 128 := by decide
  refine shows_ascii (fun d hd => ?_) letters
  rcases List.mem_cons.mp hd with rfl | hd
  · exact hc
  · rw [List.eq_of_mem_replicate hd]
    exact hblank

mutual
theorem shows_render (pad : Nat) (v : Value) {t : List Char} (h : v.render pad = some t) : Shows v.chars t := by
  cases v with
  | null => cases h; exact shows_ascii (by decide) _
  | bool b => cases b <;> cases h <;> exact shows_ascii (by decide) _
  | int n => cases h; exact shows_renderInt n _
  | float x => cases h; exact shows_float x _
  | str s => cases h; exact shows_renderString s
  | list items =>
    obtain ⟨t, ht, rfl⟩ := Option.map_eq_some_iff.mp h
    exact Shows.append (s := ['[']) (shows_ascii (by decide) _) (shows_renderItems pad items ht)
  | dict fields =>
    obtain ⟨t, ht, rfl⟩ := Option.map_eq_some_iff.mp h
    exact Shows.append (s := ['{']) (shows_ascii (by decide) _) (shows_renderFields pad fields ht)
  | other => cases h

theorem shows_renderItems (pad : Nat) (items : List Value) {t : List Char} (h : renderItems pad items = some t) :
    Shows (itemChars items) t := by
  match items with
  | [] => cases h; exact shows_ascii (by decide) _
  | [v] =>
    obtain ⟨x, hx, rfl⟩ := Option.map_eq_some_iff.mp h
    exact ((shows_render pad v hx).mono (List.subset_append_left _ _)).append (shows_ascii (by decide) _)
  | v :: w :: items =>
    simp only [renderItems, Option.bind_eq_bind, Option.bind_eq_some_iff, Option.pure_def, Option.some.injEq] at h
    obtain ⟨x, hx, y, hy, rfl⟩ := h
    have hv := (shows_render pad v hx).mono (List.subset_append_left _ (itemChars (w :: items)))
    have hitems := (shows_renderItems pad (w :: items) hy).mono (List.subset_append_right v.chars _)
    exact (hv.append (shows_separator (by decide) pad _)).append hitems

theorem shows_renderFields (pad : Nat) (fields : List (String × Value)) {t : List Char}
    (h : renderFields pad fields = some t) : Shows (fieldChars fields) t := by
  match fields with
  | [] => cases h; exact shows_ascii (by decide) _
  | [(key, v)] =>
    obtain ⟨x, hx, rfl⟩ := Option.map_eq_some_iff.mp h
    have hkey := (shows_renderString key).mono (List.subset_append_of_subset_left [] (List.subset_append_left _ v.chars))
    have hv := (shows_render pad v hx).mono (List.subset_append_of_subset_left [] (List.subset_append_right key.toList _))
    exact ((hkey.append (shows_separator (by decide) pad _)).append hv).append (shows_ascii (by decide) _)
  | (key, v) :: f :: fields =>
    simp only [renderFields, Option.bind_eq_bind, Option.bind_eq_some_iff, Option.pure_def, Option.some.injEq] at h
    obtain ⟨x, hx, y, hy, rfl⟩ := h
    have hkey := (shows_renderString key).mono
      (List.subset_append_of_subset_left (fieldChars (f :: fields)) (List.subset_append_left _ v.chars))
    have hv := (shows_render pad v hx).mono
      (List.subset_append_of_subset_left (fieldChars (f :: fields)) (List.subset_append_right key.toList _))
    have hfields := (shows_renderFields pad (f :: fields) hy).mono (List.subset_append_right (key.toList ++ v.chars) _)
    exact (((hkey.append (shows_separator (by decide) pad _)).append hv).append (shows_separator (by decide) pad _)).append
      hfields
end

/-- A written value is one line. -/
theorem newline_render (pad : Nat) (v : Value) {t : List Char} (h : v.render pad = some t) : '\n' ∉ t := fun hm =>
  absurd (shows_render pad v h _ hm).1 (by decide)

theorem mem_renderString {s : String} {d : Char} (hd : d ∈ s.toList) (hbig : 128 ≤ d.toNat) : d ∈ renderString s := by
  have hne {c : Char} (hc : c.toNat < 128) : d ≠ c := by
    rintro rfl
    omega
  have hescape : escapeChar d = [d] := by
    unfold escapeChar
    rw [if_neg (hne (by decide)), if_neg (hne (by decide)), if_neg (hne (by decide)), if_neg (hne (by decide)),
      if_neg (hne (by decide)), if_neg (hne (by decide)), if_neg (hne (by decide)), if_neg (by omega)]
  refine List.mem_cons_of_mem _ (List.mem_append_left _ (List.mem_flatMap.mpr ⟨d, hd, ?_⟩))
  rw [hescape]
  exact List.mem_singleton_self d

mutual
/-- Beyond ASCII the characters of the texts stand as they are. -/
theorem mem_render (pad : Nat) (v : Value) {t : List Char} (h : v.render pad = some t) {d : Char} (hd : d ∈ v.chars)
    (hbig : 128 ≤ d.toNat) : d ∈ t := by
  cases v with
  | str s => cases h; exact mem_renderString hd hbig
  | list items =>
    obtain ⟨t, ht, rfl⟩ := Option.map_eq_some_iff.mp h
    exact List.mem_cons_of_mem _ (mem_renderItems pad items ht hd hbig)
  | dict fields =>
    obtain ⟨t, ht, rfl⟩ := Option.map_eq_some_iff.mp h
    exact List.mem_cons_of_mem _ (mem_renderFields pad fields ht hd hbig)
  | _ => cases hd

theorem mem_renderItems (pad : Nat) (items : List Value) {t : List Char} (h : renderItems pad items = some t) {d : Char}
    (hd : d ∈ itemChars items) (hbig : 128 ≤ d.toNat) : d ∈ t := by
  match items with
  | [] => cases hd
  | [v] =>
    obtain ⟨x, hx, rfl⟩ := Option.map_eq_some_iff.mp h
    have hv : d ∈ v.chars := by simpa [itemChars] using hd
    exact List.mem_append_left _ (mem_render pad v hx hv hbig)
  | v :: w :: items =>
    simp only [renderItems, Option.bind_eq_bind, Option.bind_eq_some_iff, Option.pure_def, Option.some.injEq] at h
    obtain ⟨x, hx, y, hy, rfl⟩ := h
    rcases List.mem_append.mp hd with hv | hitems
    · exact List.mem_append_left _ (List.mem_append_left _ (mem_render pad v hx hv hbig))
    · exact List.mem_append_right _ (mem_renderItems pad (w :: items) hy hitems hbig)

theorem mem_renderFields (pad : Nat) (fields : List (String × Value)) {t : List Char}
    (h : renderFields pad fields = some t) {d : Char} (hd : d ∈ fieldChars fields) (hbig : 128 ≤ d.toNat) : d ∈ t := by
  match fields with
  | [] => cases hd
  | [(key, v)] =>
    obtain ⟨x, hx, rfl⟩ := Option.map_eq_some_iff.mp h
    have hboth : d ∈ key.toList ∨ d ∈ v.chars := by simpa [fieldChars] using hd
    rcases hboth with hkey | hv
    · simp [mem_renderString hkey hbig]
    · simp [mem_render pad v hx hv hbig]
  | (key, v) :: f :: fields =>
    simp only [renderFields, Option.bind_eq_bind, Option.bind_eq_some_iff, Option.pure_def, Option.some.injEq] at h
    obtain ⟨x, hx, y, hy, rfl⟩ := h
    rcases List.mem_append.mp hd with hboth | hfields
    · rcases List.mem_append.mp hboth with hkey | hv
      · simp [mem_renderString hkey hbig]
      · simp [mem_render pad v hx hv hbig]
    · exact List.mem_append_right _ (mem_renderFields pad (f :: fields) hy hfields hbig)
end

end Akb.Library.Json
