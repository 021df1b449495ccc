import Akb.Publications.PublicPages
import Mathlib.Data.Int.Interval

/-! `max_views` is a hard cap, and a password is needed for each answer: in every run, whoever sends what. -/
namespace Akb.Publications
open Akb.Library

variable {hmac : List Char → List Char} {s : GrantSettings} {d : Decimals} {checkpw : List Char → List Char → Bool}
variable {w w' : World} {slug : List Char}

/-! ### What a signature says -/

def UrlSafe (slug : List Char) : Prop := ∀ c ∈ slug, c.isAlphanum ∨ c = '-' ∨ c = '_'

theorem UrlSafe.colon (h : UrlSafe slug) : ':' ∉ slug :=
  fun hc => absurd (h ':' hc) (by decide)

/-- The fields of a message can be told from it. -/
theorem fields_inj {a b : List (List Char)} (ha : ∀ f ∈ a, ':' ∉ f) (hb : ∀ f ∈ b, ':' ∉ f) (hane : a ≠ []) (hbne : b ≠ [])
    (h : [':'].intercalate a = [':'].intercalate b) : a = b := by
  rw [← List.splitOn_intercalate ':' ha hane, h, List.splitOn_intercalate ':' hb hbne]

/-- What the server signs as a grant. -/
def IsGrant (s : GrantSettings) (slug : List Char) (g : Capability) : Prop :=
  g.message = legacyMessage slug (Json.renderInt g.issued) ∨
    ∃ expires ≤ g.issued + s.viewGrantTtlSecs,
      g.message = boundedMessage slug (Json.renderInt g.issued) (Json.renderInt expires)

/-- What the server signs as a token. -/
def IsToken (slug : List Char) (t : Capability) : Prop := t.message = tokenMessage slug (Json.renderInt t.issued)

theorem isGrant_makeBoundedViewGrant (now : ℚ) : IsGrant s slug (makeBoundedViewGrant hmac s slug none now) :=
  .inr ⟨_, min_le_left _ _, rfl⟩

theorem isGrant_of_mem_pageGrants {now sessionNow : ℚ} {g : Capability} (h : g ∈ pageGrants hmac s slug now sessionNow) :
    IsGrant s slug g := by
  have hfirst : IsGrant s slug (makeViewGrant hmac s slug none now) := by
    unfold makeViewGrant
    split
    · exact .inl rfl
    · exact isGrant_makeBoundedViewGrant now
  unfold pageGrants at h
  simp only at h
  split at h
  · rw [List.mem_singleton.mp h]
    exact hfirst
  · rcases List.mem_cons.mp h with rfl | h
    · exact hfirst
    · rw [List.mem_singleton.mp h]
      exact isGrant_makeBoundedViewGrant sessionNow

/-- The messages of grants differ when their publications or their numbers do. -/
theorem grantMessage_inj {slug' : List Char} {a b : List (List Char)} (hslug : ':' ∉ slug) (hslug' : ':' ∉ slug')
    (ha : ∀ f ∈ a, ':' ∉ f) (hb : ∀ f ∈ b, ':' ∉ f)
    (h : [':'].intercalate ("grant".toList :: slug :: a) = [':'].intercalate ("grant".toList :: slug' :: b)) :
    slug = slug' ∧ a = b := by
  have hgrant : ':' ∉ "grant".toList := by decide
  have hfields := fields_inj (List.forall_mem_cons.mpr ⟨hgrant, List.forall_mem_cons.mpr ⟨hslug, ha⟩⟩)
    (List.forall_mem_cons.mpr ⟨hgrant, List.forall_mem_cons.mpr ⟨hslug', hb⟩⟩) (List.cons_ne_nil _ _) (List.cons_ne_nil _ _) h
  simpa using hfields

/-- A grant that is checked with the message of a grant that was made is of the same publication, and is over with it. -/
theorem grant_of_message {slug' grant sig : List Char} {g : Capability} {issued expires : Int} (hslug : ':' ∉ slug)
    (hslug' : ':' ∉ slug') (hg : IsGrant s slug' g) (hmac' : grantMac slug grant = some (g.message, sig))
    (htimes : grantTimes s d grant = some (issued, expires)) : slug = slug' ∧ expires ≤ g.issued + s.viewGrantTtlSecs := by
  have hone (n : Int) : ∀ f ∈ [Json.renderInt n], ':' ∉ f := by
    simpa using (notMem_renderInt n).2
  have htwo (n m : Int) : ∀ f ∈ [Json.renderInt n, Json.renderInt m], ':' ∉ f := by
    simpa using ⟨(notMem_renderInt n).2, (notMem_renderInt m).2⟩
  unfold grantMac at hmac'
  unfold grantTimes at htimes
  split at hmac'
  · rename_i issuedText sigText hsplit
    rw [hsplit] at htimes
    obtain ⟨i, hi, htimes⟩ := Option.map_eq_some_iff.mp htimes
    cases htimes
    have hmessage := congrArg Prod.fst (Option.some.inj hmac')
    have hread : ∀ f ∈ [issuedText], ':' ∉ f := by simpa using colon_of_int hi
    rcases hg with hg | ⟨e, -, hg⟩
    · obtain ⟨rfl, htext⟩ := grantMessage_inj hslug hslug' hread (hone g.issued) (hmessage.trans hg)
      rw [(List.cons.inj htext).1, int_renderInt] at hi
      cases hi
      exact ⟨rfl, le_refl _⟩
    · obtain ⟨-, htext⟩ := grantMessage_inj hslug hslug' hread (htwo g.issued e) (hmessage.trans hg)
      simp at htext
  · rename_i issuedText expiresText sigText hsplit
    rw [hsplit] at htimes
    obtain ⟨i, hi, htimes⟩ := Option.bind_eq_some_iff.mp htimes
    obtain ⟨e, he, htimes⟩ := Option.bind_eq_some_iff.mp htimes
    cases htimes
    have hmessage := congrArg Prod.fst (Option.some.inj hmac')
    have hread : ∀ f ∈ [issuedText, expiresText], ':' ∉ f := by
      simpa using ⟨colon_of_int hi, colon_of_int he⟩
    rcases hg with hg | ⟨e', he', hg⟩
    · obtain ⟨-, htext⟩ := grantMessage_inj hslug hslug' hread (hone g.issued) (hmessage.trans hg)
      simp at htext
    · obtain ⟨rfl, htext⟩ := grantMessage_inj hslug hslug' hread (htwo g.issued e') (hmessage.trans hg)
      simp only [List.cons.injEq, and_true] at htext
      rw [htext.2, int_renderInt] at he
      cases he
      exact ⟨rfl, he'⟩
  · cases hmac'

/-- A message of the form of a grant. -/
def GrantShaped (slug message : List Char) : Prop :=
  ∃ f fields, (∀ x ∈ f :: fields, ':' ∉ x) ∧ message = [':'].intercalate ("grant".toList :: slug :: f :: fields)

theorem IsGrant.shaped {g : Capability} (h : IsGrant s slug g) : GrantShaped slug g.message := by
  have hnumber (n : Int) : ':' ∉ Json.renderInt n := (notMem_renderInt n).2
  rcases h with h | ⟨e, -, h⟩
  · exact ⟨Json.renderInt g.issued, [], by simpa using hnumber g.issued, h⟩
  · exact ⟨Json.renderInt g.issued, [Json.renderInt e], by simpa using ⟨hnumber g.issued, hnumber e⟩, h⟩

theorem shaped_of_grantMac {grant message sig : List Char} {times : Int × Int} (hmac' : grantMac slug grant = some (message, sig))
    (htimes : grantTimes s d grant = some times) : GrantShaped slug message := by
  unfold grantMac at hmac'
  unfold grantTimes at htimes
  split at hmac'
  · rename_i issuedText sigText hsplit
    rw [hsplit] at htimes
    obtain ⟨i, hi, -⟩ := Option.map_eq_some_iff.mp htimes
    cases hmac'
    exact ⟨issuedText, [], by simpa using colon_of_int hi, rfl⟩
  · rename_i issuedText expiresText sigText hsplit
    rw [hsplit] at htimes
    obtain ⟨i, hi, htimes⟩ := Option.bind_eq_some_iff.mp htimes
    obtain ⟨e, he, -⟩ := Option.bind_eq_some_iff.mp htimes
    cases hmac'
    exact ⟨issuedText, [expiresText], by simpa using ⟨colon_of_int hi, colon_of_int he⟩, rfl⟩
  · cases hmac'

/-- The message of a token is none of a grant. -/
theorem tokenMessage_not_shaped {slug' issued : List Char} (hslug : ':' ∉ slug) (hslug' : ':' ∉ slug') (hissued : ':' ∉ issued) :
    ¬ GrantShaped slug' (tokenMessage slug issued) := by
  rintro ⟨f, fields, hfields, h⟩
  have hgrant : ':' ∉ "grant".toList := by decide
  have heq := fields_inj (by simpa using ⟨hslug, hissued⟩)
    (List.forall_mem_cons.mpr ⟨hgrant, List.forall_mem_cons.mpr ⟨hslug', hfields⟩⟩) (List.cons_ne_nil _ _) (List.cons_ne_nil _ _) h
  simp at heq

theorem GrantShaped.head {message : List Char} (h : GrantShaped slug message) : message.head? = some 'g' := by
  obtain ⟨f, fields, -, rfl⟩ := h
  rfl

/-- The head of the message of a token is one of its slug, or the colon. -/
theorem head_tokenMessage (hslug : UrlSafe slug) (issued : List Char) : (tokenMessage slug issued).head? ≠ some '{' := by
  cases slug with
  | nil =>
    have hhead : (tokenMessage [] issued).head? = some ':' := rfl
    rw [hhead]
    decide
  | cons c slug =>
    have hhead : (tokenMessage (c :: slug) issued).head? = some c := rfl
    rw [hhead]
    intro h
    rw [Option.some.inj h] at hslug
    exact absurd (hslug '{' List.mem_cons_self) (by decide)

theorem verifyViewGrant_spec {grant : List Char} {now : ℚ} (h : verifyViewGrant hmac s d slug grant now = true) :
    ∃ message sig issued expires, grantMac slug grant = some (message, sig) ∧ matchesHmacHexdigest (hmac message) sig ∧
      grantTimes s d grant = some (issued, expires) ∧ toSeconds now ≤ expires := by
  unfold verifyViewGrant at h
  split at h
  · rename_i issued expires hparse
    unfold parseViewGrant at hparse
    split at hparse
    · rename_i issued' expires' message sig htimes hmac'
      split at hparse
      · cases hparse
      · split at hparse
        · cases hparse
        · split at hparse
          · rename_i hmatches
            cases hparse
            exact ⟨message, sig, issued, expires, hmac', hmatches, htimes, of_decide_eq_true (Bool.and_eq_true_iff.mp h).2⟩
          · cases hparse
    · cases hparse
  · cases h

theorem verifyToken_spec {token : List Char} {now : ℚ} (h : verifyToken hmac d slug token now = true) :
    ∃ issued sig ts, tokenMac slug token = some (tokenMessage slug issued, sig) ∧ d.int issued = some ts ∧
      matchesHmacHexdigest (hmac (tokenMessage slug issued)) sig ∧ |now - (ts : ℚ)| ≤ tokenTtl := by
  unfold verifyToken at h
  split at h
  · rename_i message sig ts hmac' hint
    split at h
    · cases h
    · rename_i hage
      unfold tokenMac at hmac' ⊢
      split at hmac'
      · cases hmac'
        exact ⟨_, sig, ts, rfl, hint, h, not_lt.mp hage⟩
      · cases hmac'
  · cases h

/-! ### What an answer rests on -/

/-- A view of the publication was counted, and answered with a grant that was not over at a time. -/
def Vouched (s : GrantSettings) (responses : List Response) (slug : List Char) (at' : ℚ) : Prop :=
  ∃ v ∈ responses, v.view.isSome ∧ v.row.slug.text = slug ∧ ∃ g ∈ v.grants, toSeconds at' ≤ g.issued + s.viewGrantTtlSecs

/-- The password of the publication was given, and answered with a token that was not over at a time. -/
def LoggedIn (responses : List Response) (slug : List Char) (at' : ℚ) : Prop :=
  ∃ a ∈ responses, a.row.slug.text = slug ∧ ∃ t ∈ a.token, |at' - (t.issued : ℚ)| ≤ tokenTtl

def KnowsPassword (checkpw : List Char → List Char → Bool) (row : Publication) (r : Request) : Prop :=
  ∀ hash ∈ row.passwordHash, hash ≠ [] → checkpw r.password hash = true

/-- What is known of a request that is being answered. -/
structure Pending.Founded (s : GrantSettings) (checkpw : List Char → List Char → Bool) (responses : List Response)
    (p : Pending) : Prop where
  granted : p.incrementView = false → p.request.route.serves → UrlSafe p.request.slug →
    Vouched s responses p.request.slug p.grantCheckedAt
  renewed : p.request.route = .renew → p.incrementView = true
  login : ∀ password, p.request.route = .auth password → p.bypassPassword = false
  bypassed : p.bypassPassword = true → UrlSafe p.request.slug → LoggedIn responses p.request.slug p.tokenCheckedAt
  row : ∀ row ∈ p.stage.row, row.slug.text = p.request.slug ∧ (p.bypassPassword = true ∨ KnowsPassword checkpw row p.request)
  counting : ∀ row, p.stage = .counting row → p.incrementView = true
  resolved : ∀ row view, p.stage = .resolved row view → view.isSome = p.incrementView

/-- What is known of an answer. -/
structure Response.Founded (s : GrantSettings) (checkpw : List Char → List Char → Bool) (responses : List Response)
    (r : Response) : Prop where
  slug : r.row.slug.text = r.request.slug
  granted : r.view = none → r.request.route.serves → Vouched s responses r.row.slug.text r.grantCheckedAt
  password : KnowsPassword checkpw r.row r.request ∨ LoggedIn responses r.row.slug.text r.tokenCheckedAt
  grants : ∀ g ∈ r.grants, r.view.isSome ∧ IsGrant s r.row.slug.text g
  token : ∀ t ∈ r.token, KnowsPassword checkpw r.row r.request ∧ IsToken r.row.slug.text t

theorem Vouched.mono {responses responses' : List Response} {at' : ℚ} (h : Vouched s responses slug at')
    (hsub : ∀ r ∈ responses, r ∈ responses') : Vouched s responses' slug at' := by
  obtain ⟨v, hv, hview⟩ := h
  exact ⟨v, hsub v hv, hview⟩

theorem LoggedIn.mono {responses responses' : List Response} {at' : ℚ} (h : LoggedIn responses slug at')
    (hsub : ∀ r ∈ responses, r ∈ responses') : LoggedIn responses' slug at' := by
  obtain ⟨a, ha, hlogin⟩ := h
  exact ⟨a, hsub a ha, hlogin⟩

theorem Pending.Founded.mono {responses responses' : List Response} {p : Pending} (h : p.Founded s checkpw responses)
    (hsub : ∀ r ∈ responses, r ∈ responses') : p.Founded s checkpw responses' :=
  { h with
    granted := fun hview hserves hslug => (h.granted hview hserves hslug).mono hsub
    bypassed := fun hbypass hslug => (h.bypassed hbypass hslug).mono hsub }

theorem Response.Founded.mono {responses responses' : List Response} {r : Response} (h : r.Founded s checkpw responses)
    (hsub : ∀ r ∈ responses, r ∈ responses') : r.Founded s checkpw responses' :=
  { h with
    granted := fun hview hserves => (h.granted hview hserves).mono hsub
    password := h.password.imp_right fun hlogin => hlogin.mono hsub }

/-- Each signed message is a capability of an answer, or was signed elsewhere. -/
def Accounted (w : World) : Prop :=
  ∀ m ∈ w.signed, m.head? = some '{' ∨ ∃ r ∈ w.responses, (∃ g ∈ r.grants, g.message = m) ∨ ∃ t ∈ r.token, t.message = m

theorem vouched_of_verify {grant : List Char} {now : ℚ} (hsigned : Accounted w)
    (hresponses : ∀ r ∈ w.responses, r.Founded s checkpw w.responses) (hforged : Unforged hmac w.signed (grantMac slug grant))
    (hslug : UrlSafe slug) (h : verifyViewGrant hmac s d slug grant now = true) : Vouched s w.responses slug now := by
  obtain ⟨message, sig, issued, expires, hmac', hmatches, htimes, hnow⟩ := verifyViewGrant_spec h
  have hshaped := shaped_of_grantMac hmac' htimes
  rcases hsigned message (hforged _ hmac' hmatches) with hhead | ⟨r, hr, ⟨g, hg, rfl⟩ | ⟨t, ht, rfl⟩⟩
  · rw [hshaped.head] at hhead
    exact absurd hhead (by decide)
  · obtain ⟨hview, hgrant⟩ := (hresponses r hr).grants g hg
    obtain ⟨rfl, hover⟩ := grant_of_message hslug.colon (UrlSafe.colon r.row.slug.urlSafe) hgrant hmac' htimes
    exact ⟨r, hr, hview, rfl, g, hg, le_trans hnow hover⟩
  · have htoken := ((hresponses r hr).token t ht).2
    rw [IsToken] at htoken
    rw [htoken] at hshaped
    exact absurd hshaped (tokenMessage_not_shaped (UrlSafe.colon r.row.slug.urlSafe) hslug.colon (notMem_renderInt _).2)

theorem loggedIn_of_verify {token : List Char} {now : ℚ} (hsigned : Accounted w)
    (hresponses : ∀ r ∈ w.responses, r.Founded s checkpw w.responses) (hforged : Unforged hmac w.signed (tokenMac slug token))
    (hslug : UrlSafe slug) (h : verifyToken hmac d slug token now = true) : LoggedIn w.responses slug now := by
  obtain ⟨issued, sig, ts, hmac', hint, hmatches, hage⟩ := verifyToken_spec h
  rcases hsigned _ (hforged _ hmac' hmatches) with hhead | ⟨r, hr, ⟨g, hg, hmessage⟩ | ⟨t, ht, hmessage⟩⟩
  · exact absurd hhead (head_tokenMessage hslug issued)
  · have hshaped := ((hresponses r hr).grants g hg).2.shaped
    rw [hmessage] at hshaped
    exact absurd hshaped (tokenMessage_not_shaped hslug.colon (UrlSafe.colon r.row.slug.urlSafe) (colon_of_int hint))
  · have htoken := ((hresponses r hr).token t ht).2
    have hfields := fields_inj (b := [slug, issued]) (by simpa using ⟨UrlSafe.colon r.row.slug.urlSafe, (notMem_renderInt t.issued).2⟩)
      (by simpa using ⟨hslug.colon, colon_of_int hint⟩) (List.cons_ne_nil _ _) (List.cons_ne_nil _ _)
      (htoken.symm.trans hmessage)
    simp only [List.cons.injEq, and_true] at hfields
    obtain ⟨hsame, rfl⟩ := hfields
    rw [int_renderInt] at hint
    cases hint
    exact ⟨r, hr, hsame, t, ht, hage⟩

/-! ### Requests -/

theorem founded_of_receive {r : Request} {p : Pending} {grantClock tokenClock : ℚ} (hsigned : Accounted w)
    (hresponses : ∀ r ∈ w.responses, r.Founded s checkpw w.responses)
    (hgrant : Unforged hmac w.signed (grantMac r.slug r.viewGrant)) (htoken : Unforged hmac w.signed (tokenMac r.slug r.token))
    (h : receive hmac s d r grantClock tokenClock = some p) : p.Founded s checkpw w.responses ∧ p.stage = .looking := by
  have hvouched (hverify : verifyViewGrant hmac s d r.slug r.viewGrant grantClock = true) (hslug : UrlSafe r.slug) :
      Vouched s w.responses r.slug grantClock := vouched_of_verify hsigned hresponses hgrant hslug hverify
  have hlogin (hbypass : (!r.token.isEmpty && verifyToken hmac d r.slug r.token tokenClock) = true) (hslug : UrlSafe r.slug) :
      LoggedIn w.responses r.slug tokenClock :=
    loggedIn_of_verify hsigned hresponses htoken hslug (Bool.and_eq_true_iff.mp hbypass).2
  have hfounded {increment enforce bypass : Bool}
      (hincrement : increment = false → r.route.serves → verifyViewGrant hmac s d r.slug r.viewGrant grantClock = true)
      (hrenewed : r.route = .renew → increment = true) (hauth : ∀ password, r.route = .auth password → bypass = false)
      (hbypass : bypass = true → (!r.token.isEmpty && verifyToken hmac d r.slug r.token tokenClock) = true) :
      (Pending.mk r increment enforce bypass grantClock tokenClock .looking).Founded s checkpw w.responses :=
    { granted := fun hview hserves hslug => hvouched (hincrement hview hserves) hslug
      renewed := hrenewed
      login := hauth
      bypassed := fun hb hslug => hlogin (hbypass hb) hslug
      row := fun row hrow => absurd hrow (Option.not_mem_none row)
      counting := fun row hrow => (by cases hrow)
      resolved := fun row view hrow => (by cases hrow) }
  have hnot {b : Bool} (h : (!b) = false) : b = true := by simpa using h
  unfold receive at h
  cases hroute : r.route with
  | page | raw | download =>
    simp only [hroute] at h
    cases h
    exact ⟨hfounded (fun hview _ => hnot hview) (fun he => by rw [hroute] at he; cases he)
      (fun password he => by rw [hroute] at he; cases he) (fun h => h), rfl⟩
  | asset =>
    simp only [hroute] at h
    split at h
    · rename_i hverify
      cases h
      exact ⟨hfounded (fun _ _ => hverify) (fun he => by rw [hroute] at he; cases he)
        (fun password he => by rw [hroute] at he; cases he) (fun h => h), rfl⟩
    · cases h
  | renew =>
    simp only [hroute] at h
    split at h
    · cases h
      exact ⟨hfounded (fun hview => absurd hview (by decide)) (fun _ => rfl)
        (fun password he => by rw [hroute] at he; cases he) (fun h => h), rfl⟩
    · cases h
  | auth password =>
    simp only [hroute] at h
    cases h
    exact ⟨hfounded (fun _ hserves => by rw [hroute] at hserves; cases hserves) (fun he => by rw [hroute] at he; cases he)
      (fun _ _ => rfl) (fun h => absurd h (by decide)), rfl⟩

theorem checkPassword_ok {row : Publication} {p : Pending} {u : Unit} (h : checkPassword checkpw row p = .ok u) :
    p.bypassPassword = true ∨ KnowsPassword checkpw row p.request := by
  unfold checkPassword at h
  split at h
  · rename_i hnone
    exact .inr fun hash hhash => by rw [hnone] at hhash; cases hhash
  · rename_i hash hsome
    split at h
    · rename_i hskip
      rcases hskip with rfl | hbypass
      · exact .inr fun hash' hhash' hne => by rw [hsome] at hhash'; cases hhash'; exact absurd rfl hne
      · exact .inl hbypass
    · split at h
      · cases h
      · split at h
        · rename_i hcheck
          exact .inr fun hash' hhash' _ => by rw [hsome] at hhash'; cases hhash'; exact hcheck
        · cases h

/-- What the first part of the resolution finds. -/
theorem lookUp_ok {p : Pending} {stage : Stage} {now : ℚ} (h : lookUp checkpw w p now = .ok stage) :
    ∃ row ∈ w.publications, row.slug.text = p.request.slug ∧ (p.bypassPassword = true ∨ KnowsPassword checkpw row p.request) ∧
      (p.incrementView = true ∧ stage = .counting row ∨ p.incrementView = false ∧ stage = .resolved row none) := by
  unfold lookUp at h
  simp only [bind_eq_ok, found_eq_ok] at h
  obtain ⟨row, hfind, _, _, _, hpassword, h⟩ := h
  have hslug : row.slug.text = p.request.slug := by simpa using List.find?_some hfind
  refine ⟨row, List.mem_of_find?_eq_some hfind, hslug, checkPassword_ok hpassword, ?_⟩
  split at h
  · rename_i hincrement
    cases h
    exact .inl ⟨hincrement, rfl⟩
  · rename_i hincrement
    split at h
    · cases h
    · cases h
      exact .inr ⟨by simpa using hincrement, rfl⟩

/-- What the `UPDATE` does. -/
theorem countView_ok {row : Publication} {now : ℚ} {publications : Table Publication Publication.id} {view : Int}
    (h : countView w row now = .ok (publications, view)) :
    ∃ current ∈ w.publications, current.id = row.id ∧ view = current.viewCount + 1 ∧ (∀ m ∈ current.maxViews, view ≤ m) ∧
      ∀ r, r ∈ publications ↔ r = { current with viewCount := view } ∨ r ∈ w.publications ∧ r.id ≠ row.id := by
  unfold countView at h
  split at h
  · cases h
  · rename_i current hget
    obtain ⟨hcurrent, hid⟩ := Table.get?_eq_some.mp hget
    split at h
    · rename_i hcountable
      cases h
      refine ⟨current, hcurrent, hid, rfl, fun m hm => ?_, fun r => ?_⟩
      · have hless := (Bool.and_eq_true_iff.mp hcountable).1
        rw [Option.mem_def.mp hm] at hless
        exact of_decide_eq_true hless
      · rw [Table.mem_updateWhere]
        constructor
        · rintro (⟨x, hx, hsel, rfl⟩ | ⟨hr, hsel⟩)
          · have hxid := of_decide_eq_true hsel
            rw [Table.eq_of_key hx hcurrent (hxid.trans hid.symm)]
            exact .inl rfl
          · exact .inr ⟨hr, by simpa using hsel⟩
        · rintro (rfl | ⟨hr, hne⟩)
          · exact .inl ⟨current, hcurrent, by simpa using hid, rfl⟩
          · exact .inr ⟨hr, by simpa using hne⟩
    · split at h <;> cases h

/-! ### What a step does -/

inductive Effect (hmac : List Char → List Char) (s : GrantSettings) (checkpw : List Char → List Char → Bool) (w : World) :
    World → Prop where
  | nothing : Effect hmac s checkpw w w
  | published (row : Publication) (publications : Table Publication Publication.id) (id : row.id = w.nextId)
      (slug : row.slug ∉ w.drawn) (count : row.viewCount = 0) (mem : ∀ r, r ∈ publications ↔ r = row ∨ r ∈ w.publications) :
      Effect hmac s checkpw w
        { w with publications := publications, nextId := w.nextId + 1, drawn := row.slug :: w.drawn }
  | unpublished (publications : Table Publication Publication.id) (mem : ∀ r ∈ publications, r ∈ w.publications) :
      Effect hmac s checkpw w { w with publications := publications }
  | received (p : Pending) (founded : p.Founded s checkpw w.responses) (stage : p.stage = .looking) :
      Effect hmac s checkpw w { w with pending := p :: w.pending }
  | lookedUp (i : Nat) (p : Pending) (row : Publication) (stage : Stage) (pending : w.pending[i]? = some p)
      (mem : row ∈ w.publications) (slug : row.slug.text = p.request.slug)
      (password : p.bypassPassword = true ∨ KnowsPassword checkpw row p.request)
      (next : p.incrementView = true ∧ stage = .counting row ∨ p.incrementView = false ∧ stage = .resolved row none) :
      Effect hmac s checkpw w (w.proceed i p stage)
  | counted (i : Nat) (p : Pending) (row current : Publication) (publications : Table Publication Publication.id) (view : Int)
      (pending : w.pending[i]? = some p) (stage : p.stage = .counting row) (mem : current ∈ w.publications)
      (id : current.id = row.id) (next : view = current.viewCount + 1) (cap : ∀ m ∈ current.maxViews, view ≤ m)
      (updated : ∀ r, r ∈ publications ↔ r = { current with viewCount := view } ∨ r ∈ w.publications ∧ r.id ≠ row.id) :
      Effect hmac s checkpw w
        { w.proceed i p (.resolved { row with viewCount := view } (some view)) with publications := publications }
  | answered (i : Nat) (p : Pending) (row : Publication) (view : Option Int) (now sessionNow : ℚ)
      (pending : w.pending[i]? = some p) (stage : p.stage = .resolved row view) :
      Effect hmac s checkpw w
        { w.abandon i with
          responses := answer hmac s p row view now sessionNow :: w.responses
          signed := (answer hmac s p row view now sessionNow).grants.map Capability.message ++
            ((answer hmac s p row view now sessionNow).token.map Capability.message).toList ++ w.signed }
  | abandoned (i : Nat) : Effect hmac s checkpw w (w.abandon i)
  | signed (message : List Char) (json : message.head? = some '{') :
      Effect hmac s checkpw w { w with signed := message :: w.signed }

theorem next_effect {a : Step} (hsigned : Accounted w) (hresponses : ∀ r ∈ w.responses, r.Founded s checkpw w.responses)
    (ha : a.Honest hmac w) : Effect hmac s checkpw w (w.next hmac s d checkpw a) := by
  cases a with
  | publish slug passwordHash maxViews expiresAt =>
    rw [World.next]
    split
    · exact .nothing
    · split
      · rename_i publications hinsert
        obtain ⟨-, hmem⟩ := Table.insert?_eq_some hinsert
        exact .published ⟨w.nextId, slug, passwordHash, maxViews, 0, expiresAt⟩ publications rfl ha rfl hmem
      · exact .nothing
  | unpublish ids =>
    rw [World.next]
    exact .unpublished _ fun r hr => (Table.mem_deleteWhere.mp hr).1
  | receive r grantClock tokenClock =>
    rw [World.next]
    split
    · rename_i p hp
      obtain ⟨hfounded, hstage⟩ := founded_of_receive hsigned hresponses ha.1 ha.2 hp
      exact .received p hfounded hstage
    · exact .nothing
  | lookUp i now =>
    rw [World.next]
    split
    · rename_i p hp
      split
      · split
        · rename_i stage hstage
          obtain ⟨row, hrow, hslug, hpassword, hnext⟩ := lookUp_ok hstage
          exact .lookedUp i p row stage hp hrow hslug hpassword hnext
        · exact .abandoned i
      · exact .nothing
    · exact .nothing
  | count i now =>
    rw [World.next]
    split
    · rename_i p hp
      split
      · rename_i row hrow
        split
        · rename_i publications view hcount
          obtain ⟨current, hcurrent, hid, hnext, hcap, hupdated⟩ := countView_ok hcount
          exact .counted i p row current publications view hp hrow hcurrent hid hnext hcap hupdated
        · exact .abandoned i
      · exact .nothing
    · exact .nothing
  | respond i now sessionNow =>
    rw [World.next]
    split
    · rename_i p hp
      split
      · rename_i row view hrow
        exact .answered i p row view now sessionNow hp hrow
      · exact .nothing
    · exact .nothing
  | drop i =>
    rw [World.next]
    exact .abandoned i
  | elsewhere message =>
    rw [World.next]
    exact .signed message ha

/-! ### Publications keep their settings -/

/-- Two states of one publication. -/
structure Same (a b : Publication) : Prop where
  id : a.id = b.id
  slug : a.slug = b.slug
  maxViews : a.maxViews = b.maxViews
  passwordHash : a.passwordHash = b.passwordHash

theorem Same.refl (a : Publication) : Same a a := ⟨rfl, rfl, rfl, rfl⟩

/-- A publication that is there, or that an answer was made from. -/
inductive Seen (w : World) (row : Publication) : Prop where
  | stored (mem : row ∈ w.publications)
  | held (p : Pending) (mem : p ∈ w.pending) (row : row ∈ p.stage.row)
  | answered (r : Response) (mem : r ∈ w.responses) (row : r.row = row)

/-- Neither an id nor a slug is ever given to another publication. -/
structure Identified (w : World) : Prop where
  issued : ∀ row, Seen w row → row.id < w.nextId ∧ row.slug ∈ w.drawn
  same : ∀ a b, Seen w a → Seen w b → a.id = b.id ∨ a.slug = b.slug → Same a b

theorem Identified.of_same (h : Identified w) (hnext : w'.nextId = w.nextId) (hdrawn : w'.drawn = w.drawn)
    (hseen : ∀ row, Seen w' row → ∃ old, Seen w old ∧ Same row old) : Identified w' where
  issued row hrow := by
    obtain ⟨old, hold, hsame⟩ := hseen row hrow
    rw [hnext, hdrawn, hsame.id, hsame.slug]
    exact h.issued old hold
  same a b ha hb hab := by
    obtain ⟨a', ha', hsa⟩ := hseen a ha
    obtain ⟨b', hb', hsb⟩ := hseen b hb
    rw [hsa.id, hsa.slug, hsb.id, hsb.slug] at hab
    have hsame := h.same a' b' ha' hb' hab
    exact ⟨hsa.id.trans (hsame.id.trans hsb.id.symm), hsa.slug.trans (hsame.slug.trans hsb.slug.symm),
      hsa.maxViews.trans (hsame.maxViews.trans hsb.maxViews.symm),
      hsa.passwordHash.trans (hsame.passwordHash.trans hsb.passwordHash.symm)⟩

theorem identified_of_effect (h : Identified w) (heffect : Effect hmac s checkpw w w') : Identified w' := by
  cases heffect with
  | nothing => exact h
  | published row publications id slug count mem =>
    have hseen : ∀ r, Seen { w with publications := publications, nextId := w.nextId + 1, drawn := row.slug :: w.drawn } r →
        r = row ∨ Seen w r := by
      rintro r (hr | ⟨p, hp, hr⟩ | ⟨q, hq, hr⟩)
      · exact ((mem r).mp hr).imp_right .stored
      · exact .inr (.held p hp hr)
      · exact .inr (.answered q hq hr)
    have hnew : ∀ r, Seen w r → r.id ≠ row.id ∧ r.slug ≠ row.slug := by
      intro r hr
      obtain ⟨hlt, hdrawn⟩ := h.issued r hr
      exact ⟨Nat.ne_of_lt (id ▸ hlt), fun he => slug (he ▸ hdrawn)⟩
    constructor
    · intro r hr
      rcases hseen r hr with rfl | hr
      · exact ⟨by rw [id]; exact Nat.lt_succ_self _, List.mem_cons_self⟩
      · exact ⟨Nat.lt_succ_of_lt (h.issued r hr).1, List.mem_cons_of_mem _ (h.issued r hr).2⟩
    · intro a b ha hb hab
      rcases hseen a ha with ha' | ha' <;> rcases hseen b hb with hb' | hb'
      · rw [ha', hb']
        exact Same.refl row
      · rw [ha'] at hab
        exact absurd hab (not_or.mpr ⟨(hnew b hb').1.symm, (hnew b hb').2.symm⟩)
      · rw [hb'] at hab
        exact absurd hab (not_or.mpr (hnew a ha'))
      · exact h.same a b ha' hb' hab
  | unpublished publications mem =>
    refine h.of_same rfl rfl ?_
    rintro r (hr | ⟨p, hp, hr⟩ | ⟨q, hq, hr⟩)
    · exact ⟨r, .stored (mem r hr), Same.refl r⟩
    · exact ⟨r, .held p hp hr, Same.refl r⟩
    · exact ⟨r, .answered q hq hr, Same.refl r⟩
  | received p founded stage =>
    refine h.of_same rfl rfl ?_
    rintro r (hr | ⟨q, hq, hr⟩ | ⟨q, hq, hr⟩)
    · exact ⟨r, .stored hr, Same.refl r⟩
    · rcases List.mem_cons.mp hq with rfl | hq
      · rw [stage] at hr
        cases hr
      · exact ⟨r, .held q hq hr, Same.refl r⟩
    · exact ⟨r, .answered q hq hr, Same.refl r⟩
  | lookedUp i p row stage pending mem slug password next =>
    refine h.of_same rfl rfl ?_
    rintro r (hr | ⟨q, hq, hr⟩ | ⟨q, hq, hr⟩)
    · exact ⟨r, .stored hr, Same.refl r⟩
    · rcases List.mem_cons.mp hq with rfl | hq
      · have hrow : r = row := by
          rcases next with ⟨-, rfl⟩ | ⟨-, rfl⟩ <;> exact (Option.some.inj hr).symm
        exact ⟨row, .stored mem, hrow ▸ Same.refl r⟩
      · exact ⟨r, .held q (List.mem_of_mem_eraseIdx hq) hr, Same.refl r⟩
    · exact ⟨r, .answered q hq hr, Same.refl r⟩
  | counted i p row current publications view pending stage mem id next cap updated =>
    have hrow : Seen w row := .held p (List.mem_of_getElem? pending) (by rw [stage]; rfl)
    refine h.of_same rfl rfl ?_
    rintro r (hr | ⟨q, hq, hr⟩ | ⟨q, hq, hr⟩)
    · rcases (updated r).mp hr with rfl | ⟨hr, -⟩
      · exact ⟨current, .stored mem, ⟨rfl, rfl, rfl, rfl⟩⟩
      · exact ⟨r, .stored hr, Same.refl r⟩
    · rcases List.mem_cons.mp hq with rfl | hq
      · rw [← Option.some.inj hr]
        exact ⟨row, hrow, ⟨rfl, rfl, rfl, rfl⟩⟩
      · exact ⟨r, .held q (List.mem_of_mem_eraseIdx hq) hr, Same.refl r⟩
    · exact ⟨r, .answered q hq hr, Same.refl r⟩
  | answered i p row view now sessionNow pending stage =>
    refine h.of_same rfl rfl ?_
    rintro r (hr | ⟨q, hq, hr⟩ | ⟨q, hq, hr⟩)
    · exact ⟨r, .stored hr, Same.refl r⟩
    · exact ⟨r, .held q (List.mem_of_mem_eraseIdx hq) hr, Same.refl r⟩
    · rcases List.mem_cons.mp hq with rfl | hq
      · exact ⟨r, .held p (List.mem_of_getElem? pending) (by rw [stage, ← hr]; rfl), Same.refl r⟩
      · exact ⟨r, .answered q hq hr, Same.refl r⟩
  | abandoned i =>
    refine h.of_same rfl rfl ?_
    rintro r (hr | ⟨q, hq, hr⟩ | ⟨q, hq, hr⟩)
    · exact ⟨r, .stored hr, Same.refl r⟩
    · exact ⟨r, .held q (List.mem_of_mem_eraseIdx hq) hr, Same.refl r⟩
    · exact ⟨r, .answered q hq hr, Same.refl r⟩
  | signed message json =>
    refine h.of_same rfl rfl ?_
    rintro r (hr | ⟨q, hq, hr⟩ | ⟨q, hq, hr⟩)
    · exact ⟨r, .stored hr, Same.refl r⟩
    · exact ⟨r, .held q hq hr, Same.refl r⟩
    · exact ⟨r, .answered q hq hr, Same.refl r⟩

/-! ### Views are numbered -/

def Pending.viewed (p : Pending) : Option (PublicationId × Int) :=
  match p.stage with
  | .resolved row (some k) => some (row.id, k)
  | _ => none

def Response.viewed (r : Response) : Option (PublicationId × Int) := r.view.map fun k => (r.row.id, k)

/-- The views counted so far, as far as they are not lost. -/
def World.views (w : World) : List (PublicationId × Int) :=
  w.pending.filterMap Pending.viewed ++ w.responses.filterMap Response.viewed

/-- A view was counted with a number, for a row as it was then. -/
inductive Counted (w : World) (row : Publication) (k : Int) : Prop where
  | held (p : Pending) (mem : p ∈ w.pending) (stage : p.stage = .resolved row (some k))
  | answered (r : Response) (mem : r ∈ w.responses) (row : r.row = row) (view : r.view = some k)

theorem viewed_eq_some {p : Pending} {id : PublicationId} {k : Int} (h : p.viewed = some (id, k)) :
    ∃ row, row.id = id ∧ p.stage = .resolved row (some k) := by
  unfold Pending.viewed at h
  split at h
  · rename_i row k' hstage
    cases h
    exact ⟨row, rfl, hstage⟩
  · cases h

theorem counted_of_mem_views {id : PublicationId} {k : Int} (h : (id, k) ∈ w.views) : ∃ row, row.id = id ∧ Counted w row k := by
  rcases List.mem_append.mp h with h | h
  · obtain ⟨p, hp, hviewed⟩ := List.mem_filterMap.mp h
    obtain ⟨row, hid, hstage⟩ := viewed_eq_some hviewed
    exact ⟨row, hid, .held p hp hstage⟩
  · obtain ⟨r, hr, hviewed⟩ := List.mem_filterMap.mp h
    obtain ⟨k', hview, heq⟩ := Option.map_eq_some_iff.mp hviewed
    obtain ⟨rfl, rfl⟩ := Prod.mk.inj heq
    exact ⟨r.row, rfl, .answered r hr rfl hview⟩

/-- No two views of a publication have the same number, and the numbers are those up to its cap and its count. -/
structure Numbered (w : World) : Prop where
  nonneg : ∀ row ∈ w.publications, 0 ≤ row.viewCount
  distinct : w.views.Nodup
  positive : ∀ row k, Counted w row k → 1 ≤ k
  capped : ∀ row k, Counted w row k → ∀ m ∈ row.maxViews, k ≤ m
  reached : ∀ row k, Counted w row k → ∀ current ∈ w.publications, current.id = row.id → k ≤ current.viewCount

theorem Numbered.of_counted (h : Numbered w) (hrows : ∀ r ∈ w'.publications, r ∈ w.publications ∨ r.viewCount = 0 ∧ r.id = w.nextId)
    (hidentified : Identified w) (hviews : w'.views.Sublist w.views ∨ w'.views.Perm w.views)
    (hcounted : ∀ row k, Counted w' row k → Counted w row k) : Numbered w' where
  nonneg row hrow := by
    rcases hrows row hrow with hrow | ⟨hzero, -⟩
    · exact h.nonneg row hrow
    · rw [hzero]
  distinct := by
    rcases hviews with hviews | hviews
    · exact h.distinct.sublist hviews
    · exact hviews.nodup_iff.mpr h.distinct
  positive row k hk := h.positive row k (hcounted row k hk)
  capped row k hk := h.capped row k (hcounted row k hk)
  reached row k hk current hcurrent hid := by
    have hold := hcounted row k hk
    rcases hrows current hcurrent with hcurrent | ⟨-, hnew⟩
    · exact h.reached row k hold current hcurrent hid
    · have hseen : Seen w row := by
        cases hold with
        | held p mem stage => exact .held p mem (by rw [stage]; rfl)
        | answered r mem row view => exact .answered r mem row
      have hlt := (hidentified.issued row hseen).1
      rw [← hid, hnew] at hlt
      exact absurd hlt (Nat.lt_irrefl _)

theorem views_abandon (w : World) (i : Nat) : (w.abandon i).views.Sublist w.views :=
  ((List.eraseIdx_sublist w.pending i).filterMap _).append (List.Sublist.refl _)

/-- The views of the requests but one, and what is put in its place. -/
theorem perm_pending {i : Nat} {p : Pending} (h : w.pending[i]? = some p) : w.pending.Perm (p :: w.pending.eraseIdx i) := by
  obtain ⟨hi, rfl⟩ := List.getElem?_eq_some_iff.mp h
  exact (List.getElem_cons_eraseIdx_perm hi).symm

theorem numbered_of_effect (h : Numbered w) (hidentified : Identified w) (heffect : Effect hmac s checkpw w w') :
    Numbered w' := by
  cases heffect with
  | nothing => exact h
  | published row publications id slug count mem =>
    refine h.of_counted (fun r hr => ?_) hidentified (.inr (List.Perm.refl _)) ?_
    · rcases (mem r).mp hr with rfl | hr
      · exact .inr ⟨count, id⟩
      · exact .inl hr
    · rintro r k (⟨p, hp, hstage⟩ | ⟨q, hq, hrow, hview⟩)
      · exact .held p hp hstage
      · exact .answered q hq hrow hview
  | unpublished publications mem =>
    refine h.of_counted (fun r hr => .inl (mem r hr)) hidentified (.inr (List.Perm.refl _)) ?_
    rintro r k (⟨p, hp, hstage⟩ | ⟨q, hq, hrow, hview⟩)
    · exact .held p hp hstage
    · exact .answered q hq hrow hview
  | received p founded stage =>
    have hviews : World.views { w with pending := p :: w.pending } = w.views := by
      have hnone : p.viewed = none := by rw [Pending.viewed, stage]
      rw [World.views, List.filterMap_cons_none hnone]
      rfl
    refine h.of_counted (fun r hr => .inl hr) hidentified (.inr (List.Perm.of_eq hviews)) ?_
    rintro r k (⟨q, hq, hstage⟩ | ⟨q, hq, hrow, hview⟩)
    · rcases List.mem_cons.mp hq with rfl | hq
      · rw [stage] at hstage
        cases hstage
      · exact .held q hq hstage
    · exact .answered q hq hrow hview
  | lookedUp i p row stage pending mem slug password next =>
    have hnone : ({ p with stage := stage } : Pending).viewed = none := by
      rcases next with ⟨-, rfl⟩ | ⟨-, rfl⟩ <;> rfl
    have hviews : (w.proceed i p stage).views = (w.abandon i).views := by
      rw [World.views, World.proceed, List.filterMap_cons_none hnone]
      rfl
    refine h.of_counted (fun r hr => .inl hr) hidentified (.inl (hviews ▸ views_abandon w i)) ?_
    rintro r k (⟨q, hq, hstage⟩ | ⟨q, hq, hrow, hview⟩)
    · rcases List.mem_cons.mp hq with rfl | hq
      · rcases next with ⟨-, rfl⟩ | ⟨-, rfl⟩ <;> cases hstage
      · exact .held q (List.mem_of_mem_eraseIdx hq) hstage
    · exact .answered q hq hrow hview
  | counted i p row current publications view pending stage mem id next cap updated =>
    have hold {r : Publication} {k : Int} (hk : Counted (w.abandon i) r k) : Counted w r k := by
      rcases hk with ⟨q, hq, hstage⟩ | ⟨q, hq, hrow, hview⟩
      · exact .held q (List.mem_of_mem_eraseIdx hq) hstage
      · exact .answered q hq hrow hview
    have hsplit : ∀ r k, Counted { w.proceed i p (.resolved { row with viewCount := view } (some view)) with
        publications := publications } r k → r = { row with viewCount := view } ∧ k = view ∨ Counted w r k := by
      rintro r k (⟨q, hq, hstage⟩ | ⟨q, hq, hrow, hview⟩)
      · rcases List.mem_cons.mp hq with rfl | hq
        · cases hstage
          exact .inl ⟨rfl, rfl⟩
        · exact .inr (.held q (List.mem_of_mem_eraseIdx hq) hstage)
      · exact .inr (.answered q hq hrow hview)
    have hsame : Same row current :=
      hidentified.same row current (.held p (List.mem_of_getElem? pending) (by rw [stage]; rfl)) (.stored mem) (.inl id.symm)
    have hnonneg := h.nonneg current mem
    constructor
    · intro r hr
      rcases (updated r).mp hr with rfl | ⟨hr, -⟩
      · show 0 ≤ view
        omega
      · exact h.nonneg r hr
    · have hviews : World.views { w.proceed i p (.resolved { row with viewCount := view } (some view)) with
          publications := publications } = (row.id, view) :: (w.abandon i).views := rfl
      rw [hviews, List.nodup_cons]
      refine ⟨fun hmem => ?_, h.distinct.sublist (views_abandon w i)⟩
      obtain ⟨r, hid, hk⟩ := counted_of_mem_views hmem
      have hle := h.reached r view (hold hk) current mem (id.trans hid.symm)
      omega
    · intro r k hk
      rcases hsplit r k hk with ⟨rfl, rfl⟩ | hk
      · omega
      · exact h.positive r k hk
    · intro r k hk
      rcases hsplit r k hk with ⟨rfl, rfl⟩ | hk
      · exact fun m hm => cap m (hsame.maxViews ▸ hm)
      · exact h.capped r k hk
    · intro r k hk c hc hid
      rcases (updated c).mp hc with rfl | ⟨hc, hne⟩
      · rcases hsplit r k hk with ⟨rfl, rfl⟩ | hk
        · exact le_refl _
        · have hle := h.reached r k hk current mem hid
          show k ≤ view
          omega
      · rcases hsplit r k hk with ⟨rfl, rfl⟩ | hk
        · exact absurd hid hne
        · exact h.reached r k hk c hc hid
  | answered i p row view now sessionNow pending stage =>
    have hviews : World.views { w.abandon i with
          responses := answer hmac s p row view now sessionNow :: w.responses
          signed := (answer hmac s p row view now sessionNow).grants.map Capability.message ++
            ((answer hmac s p row view now sessionNow).token.map Capability.message).toList ++ w.signed } |>.Perm w.views := by
      have hperm := ((perm_pending pending).filterMap Pending.viewed).append_right (w.responses.filterMap Response.viewed)
      refine List.Perm.trans ?_ hperm.symm
      cases view with
      | none =>
        have hp : p.viewed = none := by rw [Pending.viewed, stage]
        have hr : (answer hmac s p row none now sessionNow).viewed = none := rfl
        rw [World.views, List.filterMap_cons_none hp, List.filterMap_cons_none hr]
        exact List.Perm.refl _
      | some k =>
        have hp : p.viewed = some (row.id, k) := by rw [Pending.viewed, stage]
        have hr : (answer hmac s p row (some k) now sessionNow).viewed = some (row.id, k) := rfl
        rw [World.views, List.filterMap_cons_some hp, List.filterMap_cons_some hr]
        exact List.perm_middle
    refine h.of_counted (fun r hr => .inl hr) hidentified (.inr hviews) ?_
    rintro r k (⟨q, hq, hstage⟩ | ⟨q, hq, hrow, hview⟩)
    · exact .held q (List.mem_of_mem_eraseIdx hq) hstage
    · rcases List.mem_cons.mp hq with rfl | hq
      · refine .held p (List.mem_of_getElem? pending) ?_
        rw [stage, ← hrow, ← hview]
        rfl
      · exact .answered q hq hrow hview
  | abandoned i =>
    refine h.of_counted (fun r hr => .inl hr) hidentified (.inl (views_abandon w i)) ?_
    rintro r k (⟨q, hq, hstage⟩ | ⟨q, hq, hrow, hview⟩)
    · exact .held q (List.mem_of_mem_eraseIdx hq) hstage
    · exact .answered q hq hrow hview
  | signed message json =>
    refine h.of_counted (fun r hr => .inl hr) hidentified (.inr (List.Perm.refl _)) ?_
    rintro r k (⟨q, hq, hstage⟩ | ⟨q, hq, hrow, hview⟩)
    · exact .held q hq hstage
    · exact .answered q hq hrow hview

/-! ### Answers are founded -/

theorem isToken_makeToken (now : ℚ) : IsToken slug (makeToken hmac slug now) := rfl

/-- The end of a route. -/
theorem founded_answer {p : Pending} {row : Publication} {view : Option Int} {now sessionNow : ℚ} {responses : List Response}
    (h : p.Founded s checkpw responses) (hstage : p.stage = .resolved row view) :
    (answer hmac s p row view now sessionNow).Founded s checkpw responses := by
  obtain ⟨hslug, hpassword⟩ := h.row row (by rw [hstage]; rfl)
  have hview := h.resolved row view hstage
  have hurl : UrlSafe p.request.slug := hslug ▸ row.slug.urlSafe
  constructor
  · exact hslug
  · intro hnone hserves
    have hnone : view = none := hnone
    rw [hnone, Option.isSome_none] at hview
    show Vouched s responses row.slug.text p.grantCheckedAt
    rw [hslug]
    exact h.granted hview.symm hserves hurl
  · rcases hpassword with hbypass | hknows
    · refine .inr ?_
      show LoggedIn responses row.slug.text p.tokenCheckedAt
      rw [hslug]
      exact h.bypassed hbypass hurl
    · exact .inl hknows
  · have hgrants {g : Capability} (hincrement : p.incrementView = true) (hg : g ∈ pageGrants hmac s p.request.slug now sessionNow) :
        view.isSome ∧ IsGrant s row.slug.text g := by
      rw [hview, hslug]
      exact ⟨hincrement, isGrant_of_mem_pageGrants hg⟩
    intro g hg
    unfold answer at hg
    simp only at hg
    split at hg
    · split at hg
      · rename_i hcond
        exact hgrants (Bool.and_eq_true_iff.mp hcond).2 hg
      · cases hg
    · rename_i hroute
      exact hgrants (h.renewed hroute) hg
    · cases hg
  · intro t ht
    unfold answer at ht
    simp only at ht
    split at ht
    · rename_i password hroute
      cases ht
      rcases hpassword with hbypass | hknows
      · rw [h.login password hroute] at hbypass
        cases hbypass
      · refine ⟨hknows, ?_⟩
        show IsToken row.slug.text _
        rw [hslug]
        exact isToken_makeToken now
    · cases ht

/-- What is trusted rests on the answers given. -/
structure Trusted (s : GrantSettings) (checkpw : List Char → List Char → Bool) (w : World) : Prop where
  accounted : Accounted w
  pending : ∀ p ∈ w.pending, p.Founded s checkpw w.responses
  responses : ∀ r ∈ w.responses, r.Founded s checkpw w.responses

theorem trusted_of_effect (h : Trusted s checkpw w) (heffect : Effect hmac s checkpw w w') : Trusted s checkpw w' := by
  cases heffect with
  | nothing => exact h
  | published row publications id slug count mem => exact ⟨h.accounted, h.pending, h.responses⟩
  | unpublished publications mem => exact ⟨h.accounted, h.pending, h.responses⟩
  | received p founded stage =>
    exact ⟨h.accounted, List.forall_mem_cons.mpr ⟨founded, h.pending⟩, h.responses⟩
  | lookedUp i p row stage pending mem slug password next =>
    have hp := h.pending p (List.mem_of_getElem? pending)
    refine ⟨h.accounted, List.forall_mem_cons.mpr ⟨?_, fun q hq => h.pending q (List.mem_of_mem_eraseIdx hq)⟩, h.responses⟩
    refine { hp with
      row := fun r hr => ?_
      counting := fun r hr => ?_
      resolved := fun r view hr => ?_ }
    · have hrow : r = row := by
        rcases next with ⟨-, rfl⟩ | ⟨-, rfl⟩ <;> exact (Option.some.inj hr).symm
      rw [hrow]
      exact ⟨slug, password⟩
    · rcases next with ⟨hincrement, -⟩ | ⟨-, rfl⟩
      · exact hincrement
      · cases hr
    · rcases next with ⟨-, rfl⟩ | ⟨hincrement, rfl⟩
      · cases hr
      · cases hr
        exact hincrement.symm
  | counted i p row current publications view pending stage mem id next cap updated =>
    have hp := h.pending p (List.mem_of_getElem? pending)
    refine ⟨h.accounted, List.forall_mem_cons.mpr ⟨?_, fun q hq => h.pending q (List.mem_of_mem_eraseIdx hq)⟩, h.responses⟩
    refine { hp with
      row := fun r hr => ?_
      counting := fun r hr => (by cases hr)
      resolved := fun r view hr => ?_ }
    · rw [← Option.some.inj hr]
      exact hp.row row (by rw [stage]; rfl)
    · cases hr
      exact (hp.counting row stage).symm
  | answered i p row view now sessionNow pending stage =>
    have hp := h.pending p (List.mem_of_getElem? pending)
    have hsub : ∀ r ∈ w.responses, r ∈ answer hmac s p row view now sessionNow :: w.responses :=
      fun r hr => List.mem_cons_of_mem _ hr
    constructor
    · intro m hm
      rcases List.mem_append.mp hm with hm | hm
      · rcases List.mem_append.mp hm with hm | hm
        · obtain ⟨g, hg, hmessage⟩ := List.mem_map.mp hm
          exact .inr ⟨_, List.mem_cons_self, .inl ⟨g, hg, hmessage⟩⟩
        · obtain ⟨t, ht, hmessage⟩ := Option.map_eq_some_iff.mp (Option.mem_toList.mp hm)
          exact .inr ⟨_, List.mem_cons_self, .inr ⟨t, ht, hmessage⟩⟩
      · rcases h.accounted m hm with hjson | ⟨r, hr, hmessage⟩
        · exact .inl hjson
        · exact .inr ⟨r, hsub r hr, hmessage⟩
    · exact fun q hq => (h.pending q (List.mem_of_mem_eraseIdx hq)).mono hsub
    · refine List.forall_mem_cons.mpr ⟨(founded_answer hp stage).mono hsub, fun r hr => (h.responses r hr).mono hsub⟩
  | abandoned i => exact ⟨h.accounted, fun q hq => h.pending q (List.mem_of_mem_eraseIdx hq), h.responses⟩
  | signed message json =>
    refine ⟨fun m hm => ?_, h.pending, h.responses⟩
    rcases List.mem_cons.mp hm with rfl | hm
    · exact .inl json
    · exact h.accounted m hm

/-! ### Runs -/

structure Sound (s : GrantSettings) (checkpw : List Char → List Char → Bool) (w : World) : Prop where
  identified : Identified w
  numbered : Numbered w
  trusted : Trusted s checkpw w

theorem sound_empty : Sound s checkpw .empty where
  identified := by
    constructor
    · rintro row (hr | ⟨p, hp, -⟩ | ⟨r, hr, -⟩)
      · exact absurd hr (Table.not_mem_empty row)
      · cases hp
      · cases hr
    · rintro row b (hr | ⟨p, hp, -⟩ | ⟨r, hr, -⟩)
      · exact absurd hr (Table.not_mem_empty row)
      · cases hp
      · cases hr
  numbered := by
    constructor
    · exact fun row hr => absurd hr (Table.not_mem_empty row)
    · exact List.nodup_nil
    all_goals
      rintro row k (⟨p, hp, -⟩ | ⟨r, hr, -, -⟩)
      · cases hp
      · cases hr
  trusted := ⟨fun m hm => absurd hm List.not_mem_nil, fun p hp => absurd hp List.not_mem_nil,
    fun r hr => absurd hr List.not_mem_nil⟩

theorem sound_of_run {steps : List Step}
    (hrun : Run (Guarded (World.step hmac s d checkpw) (fun w a => a.Honest hmac w)) .empty steps w) : Sound s checkpw w := by
  refine hrun.invariant ?_ sound_empty
  rintro w a w' h ⟨rfl, ha⟩
  have heffect : Effect hmac s checkpw w (w.next hmac s d checkpw a) := next_effect h.trusted.accounted h.trusted.responses ha
  exact ⟨identified_of_effect h.identified heffect, numbered_of_effect h.numbered h.identified heffect,
    trusted_of_effect h.trusted heffect⟩

/-- The answers for which a view of a publication was counted. -/
def World.countedAnswers (w : World) (id : PublicationId) : List Response :=
  w.responses.filter fun q => decide (q.row.id = id) && q.view.isSome

theorem mem_countedAnswers {id : PublicationId} {q : Response} :
    q ∈ w.countedAnswers id ↔ q ∈ w.responses ∧ q.row.id = id ∧ q.view.isSome := by
  simp only [World.countedAnswers, List.mem_filter, Bool.and_eq_true, decide_eq_true_eq]

/-- Different views have different numbers, all of them up to the cap. -/
theorem length_countedAnswers (h : Sound s checkpw w) {r : Response} (hr : r ∈ w.responses) {m : Int}
    (hcap : r.row.maxViews = some m) : (w.countedAnswers r.row.id).length ≤ m.toNat := by
  have hviewed : ∀ q ∈ w.countedAnswers r.row.id, ∃ k, q.view = some k ∧ q.viewed = some (r.row.id, k) := by
    intro q hq
    obtain ⟨-, hid, hview⟩ := mem_countedAnswers.mp hq
    obtain ⟨k, hk⟩ := Option.isSome_iff_exists.mp hview
    exact ⟨k, hk, by rw [Response.viewed, hk, hid]; rfl⟩
  have hkeys : (w.countedAnswers r.row.id).filterMap Response.viewed =
      (w.countedAnswers r.row.id).map fun q => (r.row.id, q.view.getD 0) := by
    rw [← List.filterMap_eq_map]
    refine List.filterMap_congr fun q hq => ?_
    obtain ⟨k, hview, hkey⟩ := hviewed q hq
    rw [hkey, Function.comp_apply, hview, Option.getD_some]
  have hdistinct : ((w.countedAnswers r.row.id).map fun q => (r.row.id, q.view.getD 0)).Nodup := by
    rw [← hkeys]
    exact (h.numbered.distinct.sublist (List.sublist_append_right _ _)).sublist (List.filter_sublist.filterMap _)
  have hnumbers : ((w.countedAnswers r.row.id).map fun q => (r.row.id, q.view.getD 0)).toFinset ⊆
      (Finset.Icc 1 m).image fun k => (r.row.id, k) := by
    intro key hkey
    obtain ⟨q, hq, rfl⟩ := List.mem_map.mp (List.mem_toFinset.mp hkey)
    obtain ⟨k, hview, -⟩ := hviewed q hq
    obtain ⟨hmem, hid, -⟩ := mem_countedAnswers.mp hq
    have hsame := h.identified.same q.row r.row (.answered q hmem rfl) (.answered r hr rfl) (.inl hid)
    have hcounted : Counted w q.row k := .answered q hmem rfl hview
    rw [hview, Option.getD_some, Finset.mem_image]
    exact ⟨k, Finset.mem_Icc.mpr ⟨h.numbered.positive q.row k hcounted,
      h.numbered.capped q.row k hcounted m (by rw [hsame.maxViews, hcap]; rfl)⟩, rfl⟩
  calc (w.countedAnswers r.row.id).length
      = ((w.countedAnswers r.row.id).map fun q => (r.row.id, q.view.getD 0)).toFinset.card := by
        rw [List.toFinset_card_of_nodup hdistinct, List.length_map]
    _ ≤ ((Finset.Icc 1 m).image fun k => (r.row.id, k)).card := Finset.card_le_card hnumbers
    _ ≤ (Finset.Icc 1 m).card := Finset.card_image_le
    _ = m.toNat := by rw [Int.card_Icc, add_sub_cancel_right]

/-- `max_views` is a hard cap. However requests interleave, whatever clients send and pass on to each other, the
answers for a publication come from at most as many counted views as its cap allows: each answer with content was counted
itself, or asked for while a grant of a counted view was not over. -/
theorem max_views_is_a_hard_cap {steps : List Step} {r : Response} {m : Int}
    (hrun : Run (Guarded (World.step hmac s d checkpw) (fun w a => a.Honest hmac w)) .empty steps w)
    (hr : r ∈ w.responses) (hcap : r.row.maxViews = some m) :
    ∃ counted : List Response, counted.length ≤ m.toNat ∧ (∀ v ∈ counted, v ∈ w.responses ∧ v.row.id = r.row.id) ∧
      ∀ q ∈ w.responses, q.row.id = r.row.id → q.request.route.serves → q ∈ counted ∨
        ∃ v ∈ counted, ∃ g ∈ v.grants, toSeconds q.grantCheckedAt ≤ g.issued + s.viewGrantTtlSecs := by
  have h := sound_of_run hrun
  refine ⟨w.countedAnswers r.row.id, length_countedAnswers h hr hcap, fun v hv => ?_, fun q hq hid hserves => ?_⟩
  · obtain ⟨hmem, hid, -⟩ := mem_countedAnswers.mp hv
    exact ⟨hmem, hid⟩
  · cases hview : q.view with
    | some k => exact .inl (mem_countedAnswers.mpr ⟨hq, hid, by rw [hview]; rfl⟩)
    | none =>
      obtain ⟨v, hv, hviewed, hslug, g, hg, hover⟩ := (h.trusted.responses q hq).granted hview hserves
      have hsame := h.identified.same v.row q.row (.answered v hv rfl) (.answered q hq rfl)
        (.inr (by cases hs : v.row.slug; cases hs' : q.row.slug; rw [hs, hs'] at hslug; simpa using hslug))
      exact .inr ⟨v, mem_countedAnswers.mpr ⟨hv, hsame.id.trans hid, hviewed⟩, g, hg, hover⟩

instance decidableUnforged (hmac : List Char → List Char) (signed : List (List Char)) (mac : Option (List Char × List Char)) :
    Decidable (Unforged hmac signed mac) :=
  inferInstanceAs (Decidable (∀ m ∈ mac, matchesHmacHexdigest (hmac m.1) m.2 → m.1 ∈ signed))

instance decidableHonest (hmac : List Char → List Char) (w : World) : (a : Step) → Decidable (a.Honest hmac w)
  | .publish slug _ _ _ => inferInstanceAs (Decidable (slug ∉ w.drawn))
  | .receive _ _ _ => inferInstanceAs (Decidable (_ ∧ _))
  | .elsewhere message => inferInstanceAs (Decidable (message.head? = some '{'))
  | .unpublish _ | .lookUp _ _ | .count _ _ | .respond _ _ _ | .drop _ => inferInstanceAs (Decidable True)

def sampleCheckpw (password hash : List Char) : Bool := decide (password ++ ['#'] = hash)

def sampleSlug : Slug := ⟨"Zk3_x".toList, by decide⟩

def sampleRequest (route : Route) (grant token : Option (List Char)) : Request :=
  ⟨sampleSlug.text, route, grant, none, none, token, none⟩

def sampleToken : List Char := (makeToken sampleHmac sampleSlug.text 1000).text

def sampleGrant : List Char := (makeViewGrant sampleHmac sampleSettings sampleSlug.text none 1010).text

/-- The password is given, the page is opened, its file is fetched, and a second page is refused. -/
def sampleSteps : List Step :=
  [.publish sampleSlug (some "pw#".toList) (some 1) none,
    .receive (sampleRequest (.auth "pw".toList) none none) 999 999, .lookUp 0 999, .respond 0 1000 1000,
    .receive (sampleRequest (.page true) none (some sampleToken)) 1001 1001, .lookUp 0 1002, .count 0 1003,
    .respond 0 1010 1010, .receive (sampleRequest .raw (some sampleGrant) (some sampleToken)) 1400 1400,
    .receive (sampleRequest (.page true) none (some sampleToken)) 1401 1401, .lookUp 0 1402, .count 0 1403, .lookUp 0 1404,
    .respond 0 1405 1405]

def sampleNext : World → Step → World := World.next sampleHmac sampleSettings sampleDecimals sampleCheckpw

def sampleWorld : World := sampleSteps.foldl sampleNext .empty

theorem sampleRun : Run (Guarded (World.step sampleHmac sampleSettings sampleDecimals sampleCheckpw)
    (fun w a => a.Honest sampleHmac w)) .empty sampleSteps sampleWorld := by
  have hmeets : Meets sampleNext (fun w a => a.Honest sampleHmac w) .empty sampleSteps := by decide +kernel
  exact hmeets.run

/-- The answer with the file. -/
def sampleFile : Response := sampleWorld.responses.head (by decide +kernel)

theorem sampleFile_mem : sampleFile ∈ sampleWorld.responses := List.head_mem _

theorem max_views_is_a_hard_cap_sample : sampleFile.request.route = .raw ∧ sampleFile.view = none ∧
    ∃ counted : List Response, counted.length ≤ (1 : Int).toNat ∧
      (∀ v ∈ counted, v ∈ sampleWorld.responses ∧ v.row.id = sampleFile.row.id) ∧
      ∀ q ∈ sampleWorld.responses, q.row.id = sampleFile.row.id → q.request.route.serves → q ∈ counted ∨
        ∃ v ∈ counted, ∃ g ∈ v.grants, toSeconds q.grantCheckedAt ≤ g.issued + sampleSettings.viewGrantTtlSecs :=
  ⟨by decide +kernel, by decide +kernel, max_views_is_a_hard_cap sampleRun sampleFile_mem (by decide +kernel)⟩

end Akb.Publications
