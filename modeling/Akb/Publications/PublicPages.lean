import Akb.Library.Fallible
import Akb.Library.Run
import Akb.Library.Table
import Akb.Publications.Capabilities

/-! Publications served to the public. A request is answered in several steps, and the steps of other requests come
between them in any order; clients keep what they are given and can send any text. -/
namespace Akb.Publications
open Akb.Library

abbrev PublicationId := Nat

/-- What `secrets.token_urlsafe` draws. -/
structure Slug where
  text : List Char
  urlSafe : ∀ c ∈ text, c.isAlphanum ∨ c = '-' ∨ c = '_'
  deriving DecidableEq

/-- A row of `publications`. -/
structure Publication where
  id : PublicationId
  slug : Slug
  passwordHash : Option (List Char)
  maxViews : Option Int
  viewCount : Int
  expiresAt : Option ℚ
  deriving DecidableEq

inductive PublicationError
  | notFound
  | expired
  | viewLimitReached
  | passwordRequired
  | passwordInvalid
  deriving DecidableEq

/-- The routes; a page is answered in JSON, or as a table in CSV or HTML. -/
inductive Route
  | page (json : Bool)
  | raw
  | download
  | asset
  | renew
  | auth (password : List Char)
  deriving DecidableEq

/-- Whether the route answers with what is published. -/
def Route.serves : Route → Bool
  | .page _ | .raw | .download | .asset => true
  | .renew | .auth _ => false

structure Request where
  slug : List Char
  route : Route
  grantParam : Option (List Char)
  grantCookie : Option (List Char)
  tokenParam : Option (List Char)
  tokenCookie : Option (List Char)
  passwordHeader : Option (List Char)
  deriving DecidableEq

/-- `a or b` of two texts; an absent text is as good as an empty one. -/
def orText (a b : Option (List Char)) : List Char := if a.getD [] = [] then b.getD [] else a.getD []

/-- `_extract_view_grant`. -/
def Request.viewGrant (r : Request) : List Char := orText r.grantParam r.grantCookie

/-- `_extract_auth_token`. -/
def Request.token (r : Request) : List Char := orText r.tokenParam r.tokenCookie

/-- `_extract_password`, or the password of the body. -/
def Request.password (r : Request) : List Char :=
  match r.route with
  | .auth password => password
  | _ => r.passwordHeader.getD []

/-- How far `resolve_publication` is. -/
inductive Stage
  | looking
  | counting (row : Publication)
  | resolved (row : Publication) (view : Option Int)
  deriving DecidableEq

def Stage.row : Stage → Option Publication
  | .looking => none
  | .counting row | .resolved row _ => some row

/-- A request that is being answered. -/
structure Pending where
  request : Request
  incrementView : Bool
  enforceViewCap : Bool
  bypassPassword : Bool
  grantCheckedAt : ℚ
  tokenCheckedAt : ℚ
  stage : Stage
  deriving DecidableEq

/-- An answer that is no error. -/
structure Response where
  request : Request
  row : Publication
  view : Option Int
  bypassPassword : Bool
  grantCheckedAt : ℚ
  tokenCheckedAt : ℚ
  grants : List Capability
  token : Option Capability
  deriving DecidableEq

structure World where
  publications : Table Publication Publication.id
  nextId : PublicationId
  drawn : List Slug
  pending : List Pending
  signed : List (List Char)
  responses : List Response

def World.empty : World := ⟨Table.empty, 0, [], [], [], []⟩

section Resolution
variable (hmac : List Char → List Char) (s : GrantSettings) (d : Decimals) (checkpw : List Char → List Char → Bool)

/-- What a route makes of the capabilities in its request, or a refusal. -/
def receive (r : Request) (grantClock tokenClock : ℚ) : Option Pending :=
  let hasGrant := verifyViewGrant hmac s d r.slug r.viewGrant grantClock
  let bypass := !r.token.isEmpty && verifyToken hmac d r.slug r.token tokenClock
  match r.route with
  | .page _ | .raw | .download => some ⟨r, !hasGrant, !hasGrant, bypass, grantClock, tokenClock, .looking⟩
  | .asset => if hasGrant then some ⟨r, false, false, bypass, grantClock, tokenClock, .looking⟩ else none
  | .renew =>
    match validateViewGrantRenewal hmac s d r.slug r.viewGrant grantClock with
    | some _ => some ⟨r, true, true, bypass, grantClock, tokenClock, .looking⟩
    | none => none
  | .auth _ => some ⟨r, false, true, false, grantClock, tokenClock, .looking⟩

/-- The password check of `resolve_publication`. -/
def checkPassword (row : Publication) (p : Pending) : Except PublicationError Unit :=
  match row.passwordHash with
  | none => .ok ()
  | some hash =>
    if hash = [] ∨ p.bypassPassword then .ok ()
    else if p.request.password = [] then .error .passwordRequired
    else if checkpw p.request.password hash then .ok ()
    else .error .passwordInvalid

/-- `resolve_publication` up to the `UPDATE` that counts the view. -/
def lookUp (w : World) (p : Pending) (now : ℚ) : Except PublicationError Stage := do
  let row ← found (w.publications.rows.find? fun row => row.slug.text = p.request.slug) .notFound
  refuse (row.expiresAt.any fun e => decide (e ≤ now)) .expired
  checkPassword checkpw row p
  if p.incrementView then return .counting row
  else if p.enforceViewCap && row.maxViews.any fun m => decide (row.viewCount ≥ m) then throw .viewLimitReached
  else return .resolved row none

/-- Whether the `UPDATE` counts a view of the row. -/
def countable (row : Publication) (now : ℚ) : Bool :=
  row.maxViews.all (fun m => decide (row.viewCount < m)) && row.expiresAt.all (fun e => decide (e > now))

/-- The `UPDATE` that counts the view, and its new count. -/
def countView (w : World) (row : Publication) (now : ℚ) :
    Except PublicationError (Table Publication Publication.id × Int) :=
  match w.publications.get? row.id with
  | none => .error .viewLimitReached
  | some current =>
    if countable current now then
      .ok (w.publications.updateWhere (fun r => r.id = row.id) (fun r => { r with viewCount := r.viewCount + 1 })
        fun _ => rfl, current.viewCount + 1)
    else if current.expiresAt.any fun e => decide (e ≤ now) then .error .expired
    else .error .viewLimitReached

/-- The grants of a counted page: one to fetch with, and one to renew with. -/
def pageGrants (slug : List Char) (now sessionNow : ℚ) : List Capability :=
  let grant := makeViewGrant hmac s slug none now
  if (grant.text.splitOn '.').length = 3 then [grant]
  else [grant, makeBoundedViewGrant hmac s slug none sessionNow]

/-- The end of a route, when the publication has been resolved. -/
def answer (p : Pending) (row : Publication) (view : Option Int) (now sessionNow : ℚ) : Response :=
  let grants :=
    match p.request.route with
    | .page json => if json && p.incrementView then pageGrants hmac s p.request.slug now sessionNow else []
    | .renew => pageGrants hmac s p.request.slug now sessionNow
    | _ => []
  let token :=
    match p.request.route with
    | .auth _ => some (makeToken hmac p.request.slug now)
    | _ => none
  ⟨p.request, row, view, p.bypassPassword, p.grantCheckedAt, p.tokenCheckedAt, grants, token⟩

/-! ### Steps -/

inductive Step
  | publish (slug : Slug) (passwordHash : Option (List Char)) (maxViews : Option Int) (expiresAt : Option ℚ)
  | unpublish (ids : List PublicationId)
  | receive (request : Request) (grantClock tokenClock : ℚ)
  | lookUp (i : Nat) (now : ℚ)
  | count (i : Nat) (now : ℚ)
  | respond (i : Nat) (now sessionNow : ℚ)
  | drop (i : Nat)
  | elsewhere (message : List Char)

/-- A request goes on to a stage. -/
def World.proceed (w : World) (i : Nat) (p : Pending) (stage : Stage) : World :=
  { w with pending := { p with stage := stage } :: w.pending.eraseIdx i }

/-- A request ends without an answer, or with an error. -/
def World.abandon (w : World) (i : Nat) : World := { w with pending := w.pending.eraseIdx i }

def World.next (w : World) : Step → World
  | .publish slug passwordHash maxViews expiresAt =>
    if w.publications.rows.any fun row => row.slug = slug then w
    else
      match w.publications.insert? ⟨w.nextId, slug, passwordHash, maxViews, 0, expiresAt⟩ with
      | some publications => { w with publications := publications, nextId := w.nextId + 1, drawn := slug :: w.drawn }
      | none => w
  | .unpublish ids => { w with publications := w.publications.deleteWhere fun row => row.id ∈ ids }
  | .receive r grantClock tokenClock =>
    match Publications.receive hmac s d r grantClock tokenClock with
    | some p => { w with pending := p :: w.pending }
    | none => w
  | .lookUp i now =>
    match w.pending[i]? with
    | some p =>
      if p.stage = .looking then
        match Publications.lookUp checkpw w p now with
        | .ok stage => w.proceed i p stage
        | .error _ => w.abandon i
      else w
    | none => w
  | .count i now =>
    match w.pending[i]? with
    | some p =>
      match p.stage with
      | .counting row =>
        match countView w row now with
        | .ok (publications, view) =>
          { w.proceed i p (.resolved { row with viewCount := view } (some view)) with publications := publications }
        | .error _ => w.abandon i
      | _ => w
    | none => w
  | .respond i now sessionNow =>
    match w.pending[i]? with
    | some p =>
      match p.stage with
      | .resolved row view =>
        let r := answer hmac s p row view now sessionNow
        { w.abandon i with
          responses := r :: w.responses
          signed := r.grants.map Capability.message ++ (r.token.map Capability.message).toList ++ w.signed }
      | _ => w
    | none => w
  | .drop i => w.abandon i
  | .elsewhere message => { w with signed := message :: w.signed }

def World.step (w : World) (a : Step) (w' : World) : Prop := w.next hmac s d checkpw a = w'

end Resolution

/-- No signature that is checked and found right was made by anybody but the server. -/
def Unforged (hmac : List Char → List Char) (signed : List (List Char)) (mac : Option (List Char × List Char)) : Prop :=
  ∀ m ∈ mac, matchesHmacHexdigest (hmac m.1) m.2 → m.1 ∈ signed

/-- No signature is forged, no slug is drawn twice, and what is signed elsewhere with the same secret is JSON. -/
def Step.Honest (hmac : List Char → List Char) (w : World) : Step → Prop
  | .publish slug _ _ _ => slug ∉ w.drawn
  | .receive r _ _ => Unforged hmac w.signed (grantMac r.slug r.viewGrant) ∧ Unforged hmac w.signed (tokenMac r.slug r.token)
  | .elsewhere message => message.head? = some '{'
  | _ => True

end Akb.Publications
