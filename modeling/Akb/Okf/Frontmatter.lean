import Akb.Library.PyLines
import Mathlib.Data.List.TakeWhile

/-! The YAML block at the top of a concept document: composing it and splitting it off again. -/
namespace Akb.Okf
open Akb.Library PyText PyLines

abbrev Text := List Char

/-- A YAML value of another kind than the exporter writes, by what the importer asks of it. -/
structure OtherValue where
  truthy : Bool
  /-- The texts it iterates over; `none` raises `TypeError`. -/
  items : Option (List Text)
  /-- `str` of it. -/
  printed : Text

inductive Value
  | null
  | text (s : Text)
  | int (n : Int)
  | texts (items : List Text)
  | other (value : OtherValue)

/-- A mapping, in insertion order. -/
abbrev Meta := List (Text × Value)

/-- What `yaml.safe_load` did: raise `YAMLError`, load something else than a mapping, or load a mapping. -/
inductive Loaded
  | yamlError
  | notMapping
  | mapping (m : Meta)

/-- PyYAML, and the parts of `str` that depend on the Unicode tables. -/
structure Runtime where
  safeDump : Meta → Text
  safeLoad : Text → Loaded
  lower : Text → Text
  /-- `str` of a list of texts. -/
  printTexts : List Text → Text

/-- `yaml.safe_dump` writes whole lines, and `yaml.safe_load` reads them back. -/
structure Runtime.Inverts (py : Runtime) (m : Meta) : Prop where
  closed : Closed (py.safeDump m)
  loads : py.safeLoad (py.safeDump m) = .mapping m

/-- `a or b` for texts; an absent key reads as an empty text. -/
def orText (a b : Text) : Text := if a = [] then b else a

def Value.truthy : Value → Bool
  | null => false
  | text s => s ≠ []
  | int n => n ≠ 0
  | texts items => items ≠ []
  | other value => value.truthy

/-- `str(value)`. -/
def Value.str (py : Runtime) : Value → Text
  | null => "None".toList
  | text s => s
  | int n => (toString n).toList
  | texts items => py.printTexts items
  | other value => value.printed

/-- `str(value or default)`. -/
def strOr (py : Runtime) (value : Option Value) (fallback : Text) : Text :=
  match value with
  | some value => if value.truthy then value.str py else fallback
  | none => fallback

/-- `text.replace(" ", "T", 1)`. -/
def replaceSpace : Text → Text
  | [] => []
  | c :: s => if c = ' ' then 'T' :: s else c :: replaceSpace s

/-- `_iso8601`. A `datetime` is its `str`, which has the same ISO form. -/
def iso8601 (value : Text) : Option Text :=
  let text := strip value
  if text = [] then none else some (replaceSpace text)

def fence : Text := ['-', '-', '-']

def dumpFrontmatter (py : Runtime) (m : Meta) : Text := fence ++ ['\n'] ++ py.safeDump m ++ fence ++ ['\n']

def compose (py : Runtime) (m : Meta) (body : Text) : Text := dumpFrontmatter py m ++ ['\n'] ++ rstrip body ++ ['\n']

/-- A line that ends the block. -/
def isFence (line : Text) : Bool := strip line = fence

/-- `split_frontmatter`: the mapping, the body, and whether there was a block at all. -/
def splitFrontmatter (py : Runtime) (text : Text) : Option Meta × Text × Bool :=
  if !fence.isPrefixOf text then (none, text, false)
  else
    match keepLines text with
    | [] => (none, text, false)
    | first :: rest =>
      if !isFence first then (none, text, false)
      else
        match rest.dropWhile (fun line => !isFence line) with
        | [] => (none, text, false)
        | _ :: after =>
          match py.safeLoad (rest.takeWhile (fun line => !isFence line)).flatten with
          | .yamlError => (none, after.flatten, true)
          | .notMapping => (none, after.flatten, true)
          | .mapping m => (some m, after.flatten, true)

def okfKeyOrder : List Text :=
  ["type".toList, "title".toList, "description".toList, "resource".toList, "tags".toList, "timestamp".toList]

/-- `value in (None, "", [], {})` -/
def Value.blank : Value → Bool
  | null => true
  | text s => s = []
  | int _ => false
  | texts items => items = []
  | other value => !value.truthy

def textEntry (key : String) (s : Text) : Meta := if s = [] then [] else [(key.toList, .text s)]

/-- An extra key does not displace one that is there. -/
def addExtra (m : Meta) (entry : Text × Value) : Meta :=
  if (m.lookup entry.1).isSome || entry.2.blank then m else m ++ [entry]

def okfFrontmatter (type_ title description resource : Text) (tags : List Text) (timestamp : Text) (extra : Meta) :
    Meta :=
  let recommended : Meta := [("type".toList, .text (orText type_ "note".toList))] ++ textEntry "title" title ++
    textEntry "description" description ++ textEntry "resource" resource ++
    (if tags = [] then [] else [("tags".toList, .texts tags)]) ++ textEntry "timestamp" ((iso8601 timestamp).getD [])
  let m := extra.foldl addExtra recommended
  okfKeyOrder.filterMap (fun key => (m.lookup key).map fun value => (key, value)) ++
    m.filter (fun entry => entry.1 ∉ okfKeyOrder)

section Split
variable {py : Runtime} {m : Meta} {body : Text}

/-- What a block reads back as: the lines before the first one that looks like its end. -/
def Runtime.readsAs (py : Runtime) (m : Meta) : Option Meta :=
  match py.safeLoad ((keepLines (py.safeDump m)).takeWhile (fun line => !isFence line)).flatten with
  | .yamlError => none
  | .notMapping => none
  | .mapping read => some read

/-- No line of the block looks like its end. -/
def Runtime.Unfenced (py : Runtime) (m : Meta) : Prop := ∀ line ∈ keepLines (py.safeDump m), isFence line = false

theorem keepLines_compose (h : Closed (py.safeDump m)) (body : Text) :
    keepLines (compose py m body) =
      (fence ++ ['\n']) :: keepLines (py.safeDump m) ++ (fence ++ ['\n']) :: keepLines ('\n' :: (rstrip body ++ ['\n'])) := by
  have hfence : keepLines (fence ++ ['\n']) = [fence ++ ['\n']] := by decide
  have hassoc : compose py m body =
      (fence ++ ['\n']) ++ (py.safeDump m ++ ((fence ++ ['\n']) ++ ('\n' :: (rstrip body ++ ['\n'])))) := by
    simp [compose, dumpFrontmatter]
  rw [hassoc, keepLines_append (closed_newline fence), keepLines_append h, keepLines_append (closed_newline fence), hfence]
  rfl

theorem takeWhile_append_stop {α : Type*} {p : α → Bool} {x : α} (hx : p x = false) (a b : List α) :
    (a ++ x :: b).takeWhile p = a.takeWhile p := by
  induction a with
  | nil => simp [hx]
  | cons y a ih =>
    by_cases hy : p y
    · rw [List.cons_append, List.takeWhile_cons_of_pos hy, List.takeWhile_cons_of_pos hy, ih]
    · rw [List.cons_append, List.takeWhile_cons_of_neg hy, List.takeWhile_cons_of_neg hy]

theorem dropWhile_append_stop {α : Type*} {p : α → Bool} {x : α} (hx : p x = false) (a b : List α) :
    ∃ y after, (a ++ x :: b).dropWhile p = y :: after := by
  refine List.exists_cons_of_ne_nil fun hnil => ?_
  have hall : p x = true := List.dropWhile_eq_nil_iff.mp hnil x (List.mem_append_right _ List.mem_cons_self)
  rw [hx] at hall
  cases hall

theorem isFence_fence : isFence (fence ++ ['\n']) = true := by decide

/-- The lines behind the first one that ends the block. -/
def Runtime.bodyLines (py : Runtime) (m : Meta) (body : Text) : List Text :=
  ((keepLines (py.safeDump m) ++ (fence ++ ['\n']) :: keepLines ('\n' :: (rstrip body ++ ['\n']))).dropWhile
    (fun line => !isFence line)).tail

/-- A composed document always has a block, and its header is what the block reads back as. -/
theorem splitFrontmatter_compose (h : Closed (py.safeDump m)) (body : Text) :
    splitFrontmatter py (compose py m body) = (py.readsAs m, (py.bodyLines m body).flatten, true) := by
  have hprefix : fence.isPrefixOf (compose py m body) = true := by
    rw [List.isPrefixOf_iff_prefix]
    exact ⟨['\n'] ++ py.safeDump m ++ fence ++ ['\n'] ++ ['\n'] ++ rstrip body ++ ['\n'], by
      simp [compose, dumpFrontmatter]⟩
  have hstop : (!isFence (fence ++ ['\n'])) = false := by rw [isFence_fence]; rfl
  obtain ⟨y, after, hdrop⟩ := dropWhile_append_stop (p := fun line => !isFence line) hstop (keepLines (py.safeDump m))
    (keepLines ('\n' :: (rstrip body ++ ['\n'])))
  rw [splitFrontmatter, hprefix, keepLines_compose h, Bool.not_true, if_neg Bool.false_ne_true, List.cons_append]
  simp only [isFence_fence, Bool.not_true, Bool.false_eq_true, if_false, hdrop, Runtime.bodyLines, List.tail_cons,
    takeWhile_append_stop (p := fun line => !isFence line) hstop, Runtime.readsAs]
  cases py.safeLoad ((keepLines (py.safeDump m)).takeWhile (fun line => !isFence line)).flatten <;> rfl

theorem Runtime.Unfenced.open (h : py.Unfenced m) : ∀ line ∈ keepLines (py.safeDump m), (!isFence line) = true :=
  fun line hline => by rw [h line hline]; rfl

theorem readsAs_of_unfenced (hy : py.Inverts m) (h : py.Unfenced m) : py.readsAs m = some m := by
  have htake : (keepLines (py.safeDump m)).takeWhile (fun line => !isFence line) = keepLines (py.safeDump m) :=
    List.takeWhile_eq_self_iff.mpr h.open
  rw [Runtime.readsAs, htake, flatten_keepLines, hy.loads]

/-- Without such a line the mapping and the body come back. -/
theorem splitFrontmatter_of_unfenced (hy : py.Inverts m) (h : py.Unfenced m) (body : Text) :
    splitFrontmatter py (compose py m body) = (some m, '\n' :: (rstrip body ++ ['\n']), true) := by
  have hstop : ¬ (fun line => !isFence line) (fence ++ ['\n']) = true := by decide
  rw [splitFrontmatter_compose hy.closed, readsAs_of_unfenced hy h, Runtime.bodyLines,
    List.dropWhile_append_of_pos h.open, List.dropWhile_cons_of_neg (p := fun line => !isFence line) hstop,
    List.tail_cons, flatten_keepLines]

end Split
section Lookup

theorem lookup_cons_self {k : Text} {v : Value} {m : Meta} : List.lookup k ((k, v) :: m) = some v := by
  rw [List.lookup_cons, beq_self_eq_true]

theorem lookup_cons_ne {k key : Text} {v : Value} {m : Meta} (h : k ≠ key) :
    List.lookup k ((key, v) :: m) = m.lookup k := by
  rw [List.lookup_cons, beq_false_of_ne h]

theorem lookup_addExtra {k : Text} {m : Meta} {e : Text × Value} (h : k ≠ e.1) : (addExtra m e).lookup k = m.lookup k := by
  unfold addExtra
  split
  · rfl
  · rw [List.lookup_append, lookup_cons_ne h, List.lookup_nil, Option.or_none]

theorem lookup_extras {k : Text} {extra m : Meta} (h : ∀ e ∈ extra, k ≠ e.1) :
    (extra.foldl addExtra m).lookup k = m.lookup k := by
  induction extra generalizing m with
  | nil => rfl
  | cons e extra ih =>
    rw [List.foldl_cons, ih fun e' he' => h e' (List.mem_cons_of_mem _ he'), lookup_addExtra (h e List.mem_cons_self)]

theorem lookup_ordered (k : Text) (order : List Text) (m : Meta) :
    (order.filterMap fun key => (m.lookup key).map fun value => (key, value)).lookup k =
      if k ∈ order then m.lookup k else none := by
  induction order with
  | nil => rfl
  | cons key order ih =>
    rw [List.filterMap_cons]
    by_cases hk : k = key
    · subst hk
      rw [if_pos List.mem_cons_self]
      cases hm : m.lookup k with
      | none =>
        rw [Option.map_none, ih, hm]
        split <;> rfl
      | some value => exact lookup_cons_self
    · have hmem : k ∈ key :: order ↔ k ∈ order := by rw [List.mem_cons, or_iff_right hk]
      simp only [hmem, ← ih]
      cases m.lookup key with
      | none => rfl
      | some value => exact lookup_cons_ne hk

theorem lookup_rest {k : Text} {order : List Text} (h : k ∉ order) (m : Meta) :
    (m.filter fun entry => entry.1 ∉ order).lookup k = m.lookup k := by
  induction m with
  | nil => rfl
  | cons entry m ih =>
    obtain ⟨key, value⟩ := entry
    by_cases hk : k = key
    · subst hk
      rw [List.filter_cons_of_pos (by simpa using h), lookup_cons_self, lookup_cons_self]
    · rw [lookup_cons_ne hk, ← ih]
      by_cases hin : key ∈ order
      · rw [List.filter_cons_of_neg (by simpa using hin)]
      · rw [List.filter_cons_of_pos (by simpa using hin), lookup_cons_ne hk]

theorem lookup_rest_mem {k : Text} {order : List Text} (h : k ∈ order) (m : Meta) :
    (m.filter fun entry => entry.1 ∉ order).lookup k = none := by
  rw [List.lookup_eq_none_iff]
  intro entry hentry
  have hnot : entry.1 ∉ order := by simpa using (List.mem_filter.mp hentry).2
  exact bne_iff_ne.mpr fun heq => hnot (heq ▸ h)

/-- Putting the recommended keys first changes no value. -/
theorem lookup_reordered (k : Text) (order : List Text) (m : Meta) :
    ((order.filterMap fun key => (m.lookup key).map fun value => (key, value)) ++
      m.filter fun entry => entry.1 ∉ order).lookup k = m.lookup k := by
  rw [List.lookup_append, lookup_ordered]
  by_cases h : k ∈ order
  · rw [if_pos h, lookup_rest_mem h, Option.or_none]
  · rw [if_neg h, lookup_rest h, Option.none_or]

end Lookup
end Akb.Okf
