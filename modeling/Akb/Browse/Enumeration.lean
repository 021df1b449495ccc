import Akb.Browse.Cursor
import Akb.Browse.Identities

/-! Following the cursors of a browse over a catalog that stays as it is. -/
namespace Akb.Browse
open Akb.Library

private theorem withinBudget_eq {size : Position → Nat} {rows : List Position} (hrows : ∀ e ∈ rows, size e ≤ maxPageBodyBytes)
    {isFirst : Bool} {body : Nat} (hfirst : isFirst = true → body = 0) (hbody : body ≤ maxPageBodyBytes) :
    withinBudget size isFirst body rows = .ok (takeWithin size (maxPageBodyBytes - body) rows,
      decide ((takeWithin size (maxPageBodyBytes - body) rows).length < rows.length)) := by
  induction rows generalizing isFirst body with
  | nil => rfl
  | cons e rows ih =>
    obtain ⟨he, hrows⟩ := List.forall_mem_cons.mp hrows
    rw [withinBudget, if_neg (Nat.not_lt.mpr he), takeWithin]
    by_cases hfits : body + size e ≤ maxPageBodyBytes
    · have hroom : size e ≤ maxPageBodyBytes - body := by omega
      have hnext := @ih hrows false (body + size e) (fun h => absurd h Bool.false_ne_true) hfits
      rw [if_neg (fun h => Nat.not_lt.mpr hfits h.2), if_pos hroom, hnext, Nat.sub_sub]
      simp [Except.map]
    · have hroom : ¬ size e ≤ maxPageBodyBytes - body := by omega
      have hcut : ¬ isFirst = true ∧ maxPageBodyBytes < body + size e :=
        ⟨fun h => by rw [hfirst h] at hfits; omega, by omega⟩
      rw [if_pos hcut, if_neg hroom]
      simp

variable {py : Python} {c : Catalog} {r : BrowseRequest} {s : Scope}

/-- What the service answers to a cursor of the request. -/
private def fetch (py : Python) (c : Catalog) (r : BrowseRequest) (cursor : Option Text) :
    Option (List Position × Option Text) :=
  (browsePage py c { r with cursor }).toOption.map (fun page => (page.selected, page.nextCursor))

private def paging (c : Catalog) (r : BrowseRequest) (s : Scope) : Paging Position :=
  ⟨r.pageSize.toNat, maxPageBodyBytes, bodyBytes c s⟩

private theorem pageSize_pos (hscope : scopeOf c r = .ok s) : 0 < r.pageSize.toNat := by
  obtain ⟨_, hsize, -⟩ := bind_eq_ok.mp hscope
  have hsize := refuse_eq_ok.mp hsize
  omega

private theorem admits (hscope : scopeOf c r = .ok s) {rest : List Position}
    (hsize : ∀ e ∈ rest, bodyBytes c s e ≤ maxPageBodyBytes) : (paging c r s).Admits rest :=
  ⟨pageSize_pos hscope, hsize⟩

/-- A page for the rows left over. -/
private theorem browsePage_eq (hscope : scopeOf c r = .ok s) {cursor : Option Text} {after : Option Position}
    (hcursor : decodeCursor py cursor (binding py s) = .ok after) {rest : List Position}
    (hsize : ∀ e ∈ rest, bodyBytes c s e ≤ maxPageBodyBytes)
    (hrows : batchBehind Position.key (entries c s) (after.map Position.key) (r.pageSize.toNat + 1) =
      rest.take (r.pageSize.toNat + 1)) :
    ∃ page, browsePage py c { r with cursor } = .ok page ∧
      (page.selected, page.nextCursor) = (paging c r s).served (encodeCursor (binding py s)) rest ∧
      (page.complete = true ↔ page.nextCursor = none) := by
  have hscope' : scopeOf c { r with cursor } = .ok s := hscope
  have htake : (rest.take (r.pageSize.toNat + 1)).take r.pageSize.toNat = rest.take r.pageSize.toNat := by
    rw [List.take_take, Nat.min_eq_left (Nat.le_succ _)]
  have hbudget := @withinBudget_eq (bodyBytes c s) (rest.take r.pageSize.toNat)
    (fun e he => hsize e (List.mem_of_mem_take he)) true 0 (fun _ => rfl) (Nat.zero_le _)
  rw [Nat.sub_zero] at hbudget
  set page := (paging c r s).page rest with hpage
  have hselected : takeWithin (bodyBytes c s) maxPageBodyBytes (rest.take r.pageSize.toNat) = page := rfl
  have hlength : page.length ≤ (rest.take r.pageSize.toNat).length :=
    hselected ▸ (takeWithin_initial _ _ _).length_le
  have hmore : (decide (r.pageSize.toNat < (rest.take (r.pageSize.toNat + 1)).length) ||
      decide (page.length < (rest.take r.pageSize.toNat).length)) = decide (page.length ≠ rest.length) := by
    rw [← Bool.decide_or, decide_eq_decide]
    simp only [List.length_take] at hlength ⊢
    omega
  refine ⟨⟨page, page.length, !decide (page.length ≠ rest.length),
    if decide (page.length ≠ rest.length) then page.getLast?.map (encodeCursor (binding py s)) else none⟩, ?_, ?_, ?_⟩
  · simp only [browsePage, hscope', ok_bind, hcursor, hrows, htake, hbudget, hselected, hmore]
    rfl
  · rw [Paging.served, ← hpage]
    by_cases hlast : page.length = rest.length <;> simp [hlast]
  · by_cases hlast : page.length = rest.length
    · simp [hlast]
    · have hne := (admits hscope hsize).page_ne_nil (Paging.ne_nil_of_more hlast)
      simpa [hlast] using hne

private theorem withinBudget_first {size : Position → Nat} {rows selected : List Position} {cut : Bool}
    (h : withinBudget size true 0 rows = .ok (selected, cut)) : rows = [] ∧ cut = false ∨ selected ≠ [] := by
  cases rows with
  | nil => exact Or.inl ⟨rfl, (Prod.mk.inj (Except.ok.inj h)).2.symm⟩
  | cons e rows =>
    rw [withinBudget] at h
    split at h
    · cases h
    rw [if_neg (fun h => h.1 rfl)] at h
    cases hrest : withinBudget size false (0 + size e) rows with
    | error e => rw [hrest] at h; cases h
    | ok p =>
      rw [hrest] at h
      rw [← (Prod.mk.inj (Except.ok.inj h)).1]
      exact Or.inr (List.cons_ne_nil _ _)

/-- A page either completes the traversal or hands out a cursor. -/
private theorem complete_iff {page : BrowsePage} (h : browsePage py c r = .ok page) :
    page.complete = true ↔ page.nextCursor = none := by
  obtain ⟨s, hscope, h⟩ := bind_eq_ok.mp h
  obtain ⟨after, -, h⟩ := bind_eq_ok.mp h
  obtain ⟨⟨selected, cut⟩, hbudget, h⟩ := bind_eq_ok.mp h
  generalize batchBehind Position.key (entries c s) (after.map Position.key) (r.pageSize.toNat + 1) = rows at hbudget h
  rw [← pure_eq_ok.mp h]
  have hpos := pageSize_pos hscope
  cases hmore : decide (r.pageSize.toNat < rows.length) || cut
  · simp
  · have hne : selected ≠ [] := by
      refine (withinBudget_first hbudget).resolve_left fun ⟨hnil, hcut⟩ => ?_
      rw [hcut, Bool.or_false, decide_eq_true_eq] at hmore
      rcases List.take_eq_nil_iff.mp hnil with hzero | rfl
      · omega
      · exact Nat.not_lt_zero _ hmore
    simpa using hne

private theorem fetch_eq_some {cursor : Option Text} {served : List Position × Option Text} :
    fetch py c r cursor = some served ↔
      ∃ page, browsePage py c { r with cursor } = .ok page ∧ (page.selected, page.nextCursor) = served := by
  unfold fetch
  cases browsePage py c { r with cursor } with
  | error e => simp [Except.toOption]
  | ok page => simp [Except.toOption]

private theorem serves (hscope : scopeOf c r = .ok s) (hsize : ∀ e ∈ entries c s, bodyBytes c s e ≤ maxPageBodyBytes) :
    Serves (fetch py c r) (paging c r s) (encodeCursor (binding py s)) (fun e => escapedBytes e.path ≤ maxEscapedBytes)
      (ordered Position.key (entries c s)) where
  first := by
    have hcursor : decodeCursor py none (binding py s) = .ok none := rfl
    obtain ⟨page, hpage, hserved, -⟩ := browsePage_eq hscope hcursor
      (fun e he => hsize e (mem_ordered_iff.mp he)) (batchBehind_none _)
    exact fetch_eq_some.mpr ⟨page, hpage, hserved⟩
  next := by
    intro seen e rest hrows hfits
    have hmem : ∀ x ∈ e :: rest, x ∈ entries c s := fun x hx => mem_ordered_iff.mp (hrows ▸ List.mem_append_right _ hx)
    obtain ⟨page, hpage, hserved, -⟩ := browsePage_eq hscope
      (decodeCursor_encodeCursor py _ (nul_entries (hmem e List.mem_cons_self)) hfits)
      (fun x hx => hsize x (hmem x (List.mem_cons_of_mem _ hx))) (batchBehind_some (nodup_key_entries c s) hrows _)
    exact fetch_eq_some.mpr ⟨page, hpage, hserved⟩
  refused := by
    intro e _ hlong
    obtain ⟨error, herror⟩ := decodeCursor_tooLong py (py.sha256 _) hlong
    have hscope' : scopeOf c { r with cursor := some (encodeCursor (binding py s) e) } = .ok s := hscope
    have hrefused : decodeCursor py (some (encodeCursor (binding py s) e)) (binding py s) = .error error := herror
    simp only [fetch, browsePage, hscope', ok_bind, hrefused]
    rfl

/-- The hash of `["00000000-0000-0000-0000-000000000007",false,"",-1,"all","all"]`. -/
def hashed : Python where
  sha256 _ := 0xeeacf780b61671aa7aacc7d1baa1a2d2354a71ff35a7631664d3a46bb6a6918c
  oddInt _ := none
  otherEncoding _ := none

end Akb.Browse
