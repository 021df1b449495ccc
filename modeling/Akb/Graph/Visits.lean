import Akb.Graph.Hooks
import Mathlib.Combinatorics.SimpleGraph.Metric

/-! The graph around a resource: waves of edges, read by source and by target, up to a number of
hops and of nodes. -/
namespace Akb.Graph
open Akb.Library Akb.Uri

structure GraphNode where
  uri : Text
  resourceType : Kind
  name : Text
  depth : Nat
  deriving DecidableEq

structure GraphEdge where
  source : Text
  target : Text
  relation : String
  kind : EdgeKind
  deriving DecidableEq

def GraphEdge.key (e : GraphEdge) : Triple := (e.source, e.target, e.relation)

/-- What the reply says of a row. -/
def Edge.entry (e : Edge) : GraphEdge := ⟨e.sourceUri, e.targetUri, e.relationType, e.kind⟩

/-! ### The edges of one vault -/

def vaultUriPrefix (vault : Text) : Text := scheme ++ vault ++ ['/']

def uriIsInVault (uri vault : Text) : Bool :=
  match parseUri uri with
  | some parsed => parsed.vault = vault && parsed.kind ∈ linkableResourceTypes && parsed.identifier.isSome
  | none => false

/-- The predicate `edge_scope_sql`. -/
def edgeScope (vaultId : Uuid) (vault : Text) (e : Edge) : Bool :=
  e.vaultId = vaultId && (vaultUriPrefix vault).isPrefixOf e.sourceUri && (vaultUriPrefix vault).isPrefixOf e.targetUri

def Edge.within (vault : Text) (e : Edge) : Bool := uriIsInVault e.sourceUri vault && uriIsInVault e.targetUri vault

/-- The order in which a query gives its rows back: none is asked for. -/
structure RowOrder where
  arrange : Nat → Column → List Edge → List Edge
  perm : ∀ depth column rows, (arrange depth column rows).Perm rows

/-! ### The waves -/

/-- The variables of the loop; `emitted` holds the keys of the edges so far. -/
structure Collected where
  nodes : List GraphNode
  edges : List GraphEdge
  visited : List Text
  emitted : List Triple
  nextQueue : List Text

namespace Collected

def empty : Collected := ⟨[], [], [], [], []⟩

def emit (s : Collected) (source target : Text) (r : Edge) : Collected :=
  let key := (source, target, r.relationType)
  if s.emitted.contains key then s
  else { s with emitted := key :: s.emitted, edges := s.edges ++ [⟨source, target, r.relationType, r.kind⟩] }

def enqueue (s : Collected) (uri : Text) : Collected :=
  if uri ∈ s.visited then s else { s with nextQueue := s.nextQueue ++ [uri] }

/-- One row of the resource at hand, with the URI at its other end. -/
def follow (s : Collected) (source target other : Text) (r : Edge) : Collected := (s.emit source target r).enqueue other

def followOut (uri : Text) (s : Collected) (r : Edge) : Collected := s.follow uri r.targetUri r.targetUri r

def followIn (uri : Text) (s : Collected) (r : Edge) : Collected := s.follow r.sourceUri uri r.sourceUri r

def visit (depth : Nat) (limit : Int) (currentDepth : Nat) (outgoing incoming : List Edge) (s : Collected) (uri : Text) :
    Collected :=
  if uri ∈ s.visited ∨ limit ≤ s.nodes.length then s
  else
    let s := { s with visited := uri :: s.visited }
    match parseUri uri with
    | none => s
    | some parsed =>
      let s := { s with nodes := s.nodes ++ [⟨uri, parsed.kind, uri, currentDepth⟩] }
      if depth ≤ currentDepth then s
      else (incoming.filter fun r => r.targetUri = uri).foldl (followIn uri)
        ((outgoing.filter fun r => r.sourceUri = uri).foldl (followOut uri) s)

end Collected

section
variable (order : RowOrder) (edges : Edges) (vaultId : Uuid) (vaultName : Text) (depth : Nat) (limit : Int)

/-- One of the two queries of a wave, less the rows whose URIs another vault owns. -/
def fetchEdges (currentDepth : Nat) (column : Column) (unvisited : List Text) : List Edge :=
  (order.arrange currentDepth column
    (edges.rows.filter fun e => e.uri column ∈ unvisited && edgeScope vaultId vaultName e)).filter (Edge.within vaultName)

def wave (currentDepth : Nat) (unvisited : List Text) (s : Collected) : Collected :=
  unvisited.foldl
    (Collected.visit depth limit currentDepth (fetchEdges order edges vaultId vaultName currentDepth .source unvisited)
      (fetchEdges order edges vaultId vaultName currentDepth .target unvisited))
    { s with nextQueue := [] }

/-- The loop `for current_depth in range(depth + 1)`, with the number of turns that are left. -/
def waves : Nat → Nat → List Text → Collected → Collected
  | _, 0, _, s => s
  | currentDepth, turns + 1, queue, s =>
    if queue = [] ∨ limit ≤ s.nodes.length then s
    else
      let unvisited := queue.filter fun u => u ∉ s.visited
      if unvisited = [] then s
      else
        let s := wave order edges vaultId vaultName depth limit currentDepth unvisited s
        waves (currentDepth + 1) turns s.nextQueue s

/-- The name that was found, or the URI in its place. -/
def GraphNode.named (names : Text → Option Text) (n : GraphNode) : GraphNode :=
  match names n.uri with
  | some name => { n with name := if name = [] then n.uri else name }
  | none => { n with name := n.uri }

structure Neighbourhood where
  nodes : List GraphNode
  edges : List GraphEdge
  deriving DecidableEq

/-- `_bfs_collect`, with the answers of `_batch_resolve_names` as a parameter. -/
def bfsCollect (names : List (Text × Kind) → Text → Option Text) (startUri : Text) : Neighbourhood :=
  let s := waves order edges vaultId vaultName depth limit 0 (depth + 1) [startUri] Collected.empty
  let uris := s.nodes.map GraphNode.uri
  ⟨s.nodes.map (GraphNode.named (names (s.nodes.map fun n => (n.uri, n.resourceType)))),
    s.edges.filter fun e => e.source ∈ uris && e.target ∈ uris⟩

end

/-! ### What it is for -/

/-- The rows that a reader of the vault may see. -/
def visibleEdges (edges : Edges) (vaultId : Uuid) (vaultName : Text) : List Edge :=
  edges.rows.filter fun e => edgeScope vaultId vaultName e && e.within vaultName

/-- The resources, each joined to the other ends of its edges. -/
def resourceGraph (rows : List Edge) : SimpleGraph Text :=
  SimpleGraph.fromRel fun a b => ∃ e ∈ rows, e.sourceUri = a ∧ e.targetUri = b

/-- The resources at most so many edges away. -/
def ball (rows : List Edge) (start : Text) (hops : Nat) : Set Text :=
  {u | (parseUri u).isSome ∧ (resourceGraph rows).edist start u ≤ hops}

end Akb.Graph

/-! What the visit of one resource does to the variables of the loop, and how the distances of
neighbours are related. -/
namespace Akb.Graph
open Akb.Library Akb.Uri

/-! ### Distances -/

section
variable {V : Type*} {G : SimpleGraph V} {s u v : V}

theorem edist_le_of_adj {n : Nat} (h : G.Adj u v) (hu : G.edist s u ≤ n) : G.edist s v ≤ (n + 1 : Nat) :=
  calc
    G.edist s v ≤ G.edist s u + G.edist u v := G.edist_triangle
    _ ≤ n + 1 := add_le_add hu (SimpleGraph.edist_eq_one_iff_adj.mpr h).le
    _ = (n + 1 : Nat) := by rw [Nat.cast_add, Nat.cast_one]

/-- A resource in the next layer has a neighbour in this one. -/
theorem exists_adj_of_edist {n : Nat} (h : G.edist s v = (n + 1 : Nat)) : ∃ u, G.Adj u v ∧ G.edist s u = n := by
  obtain ⟨p, hp⟩ := SimpleGraph.exists_walk_of_edist_eq_coe h
  have hnil : ¬ p.Nil := by
    intro hnil
    rw [SimpleGraph.Walk.length_eq_zero_iff.mpr hnil] at hp
    cases hp
  have hadj := p.adj_penultimate hnil
  refine ⟨p.penultimate, hadj, le_antisymm ?_ ?_⟩
  · have hle := p.dropLast.edist_le
    rwa [SimpleGraph.Walk.length_dropLast, hp, Nat.add_sub_cancel] at hle
  · by_contra hlt
    obtain ⟨m, hm⟩ := ENat.ne_top_iff_exists.mp (lt_of_not_ge hlt).ne_top
    have hmn : m < n := by exact_mod_cast hm ▸ lt_of_not_ge hlt
    have hle := edist_le_of_adj hadj hm.symm.le
    rw [h] at hle
    have : n + 1 ≤ m + 1 := by exact_mod_cast hle
    omega

/-- Beyond an empty layer there is nothing. -/
theorem edist_lt_of_no_layer {d n : Nat} (hempty : ∀ u, G.edist s u ≠ d) (hu : G.edist s u ≤ n) : G.edist s u < d := by
  obtain ⟨m, hm⟩ := ENat.ne_top_iff_exists.mp (lt_of_le_of_lt hu (ENat.natCast_lt_top n)).ne
  by_contra hge
  have hdm : d ≤ m := by exact_mod_cast hm ▸ not_lt.mp hge
  clear hu hge
  induction m generalizing u with
  | zero => exact hempty u (by rw [← hm, Nat.le_zero.mp hdm])
  | succ m ih =>
    rcases Nat.eq_or_lt_of_le hdm with rfl | hlt
    · exact hempty u hm.symm
    · obtain ⟨w, -, hw⟩ := exists_adj_of_edist hm.symm
      exact ih hw.symm (Nat.lt_succ_iff.mp hlt)

end

/-! ### The edges of one resource -/

variable {order : RowOrder} {edges : Edges} {vaultId : Uuid} {vaultName : Text} {depth : Nat} {limit : Int}

theorem mem_visibleEdges {e : Edge} :
    e ∈ visibleEdges edges vaultId vaultName ↔ e ∈ edges.rows ∧ edgeScope vaultId vaultName e ∧ e.within vaultName := by
  rw [visibleEdges, List.mem_filter, Bool.and_eq_true]

theorem mem_fetchEdges {d : Nat} {column : Column} {unvisited : List Text} {e : Edge} :
    e ∈ fetchEdges order edges vaultId vaultName d column unvisited ↔
      e ∈ visibleEdges edges vaultId vaultName ∧ e.uri column ∈ unvisited := by
  rw [fetchEdges, List.mem_filter, (order.perm _ _ _).mem_iff, List.mem_filter, mem_visibleEdges, Bool.and_eq_true,
    decide_eq_true_iff]
  tauto

theorem uriIsInVault_parses {uri vault : Text} (h : uriIsInVault uri vault) : (parseUri uri).isSome := by
  unfold uriIsInVault at h
  split at h
  · rename_i hp
    rw [hp]
    rfl
  · cases h

theorem visible_parses {e : Edge} (h : e ∈ visibleEdges edges vaultId vaultName) (column : Column) :
    (parseUri (e.uri column)).isSome := by
  obtain ⟨hsource, htarget⟩ := Bool.and_eq_true_iff.mp (mem_visibleEdges.mp h).2.2
  cases column
  · exact uriIsInVault_parses hsource
  · exact uriIsInVault_parses htarget

theorem visible_key {e e' : Edge} (h : e ∈ visibleEdges edges vaultId vaultName)
    (h' : e' ∈ visibleEdges edges vaultId vaultName) (hkey : e.key = e'.key) : e = e' :=
  Table.eq_of_key (mem_visibleEdges.mp h).1 (mem_visibleEdges.mp h').1 hkey

section
variable {rows : List Edge} {u v : Text}

theorem adj_of_row {e : Edge} (h : e ∈ rows) {column : Column} (hu : e.uri column = u) (hv : e.uri column.other = v)
    (hne : u ≠ v) : (resourceGraph rows).Adj u v := by
  cases column
  · exact (SimpleGraph.fromRel_adj _ _ _).mpr ⟨hne, .inl ⟨e, h, hu, hv⟩⟩
  · exact (SimpleGraph.fromRel_adj _ _ _).mpr ⟨hne, .inr ⟨e, h, hv, hu⟩⟩

theorem row_of_adj (h : (resourceGraph rows).Adj u v) :
    ∃ e ∈ rows, ∃ column : Column, e.uri column = u ∧ e.uri column.other = v := by
  obtain ⟨-, ⟨e, he, hu, hv⟩ | ⟨e, he, hv, hu⟩⟩ := (SimpleGraph.fromRel_adj _ _ _).mp h
  · exact ⟨e, he, .source, hu, hv⟩
  · exact ⟨e, he, .target, hu, hv⟩

end

/-- The edges so far are rows, no two with one key, and `emitted` holds their keys. -/
structure Emitted (rows : List Edge) (s : Collected) : Prop where
  keys : ∀ k, k ∈ s.emitted ↔ k ∈ s.edges.map GraphEdge.key
  nodup : (s.edges.map GraphEdge.key).Nodup
  rows : ∀ x ∈ s.edges, ∃ e ∈ rows, e.entry = x

theorem Emitted.of_edges {rows : List Edge} {s t : Collected} (h : Emitted rows s) (hedges : t.edges = s.edges) (hemitted : t.emitted = s.emitted) :
    Emitted rows t := by
  constructor
  · rw [hedges, hemitted]
    exact h.keys
  · rw [hedges]
    exact h.nodup
  · rw [hedges]
    exact h.rows

namespace Collected
variable {s t : Collected} {rows l : List Edge}

/-- What the rows `l` of one resource do to the loop's variables. -/
structure Followed (column : Column) (rows l : List Edge) (s t : Collected) : Prop where
  nodes : t.nodes = s.nodes
  visited : t.visited = s.visited
  emitted : Emitted rows t
  edges : ∀ x, x ∈ t.edges ↔ x ∈ s.edges ∨ ∃ r ∈ l, r.entry = x
  queue : ∀ v, v ∈ t.nextQueue ↔ v ∈ s.nextQueue ∨ v ∉ s.visited ∧ ∃ r ∈ l, r.uri column.other = v

theorem emitted_of_entry (h : Emitted rows s) {x : GraphEdge} (hx : x ∈ s.edges) : x.key ∈ s.emitted :=
  (h.keys _).mpr (List.mem_map_of_mem hx)

/-- A row whose key was emitted before is among the edges already. -/
theorem entry_of_emitted (hkey : ∀ e ∈ rows, ∀ e' ∈ rows, e.key = e'.key → e = e') (h : Emitted rows s) {r : Edge}
    (hr : r ∈ rows) (hemitted : r.key ∈ s.emitted) : r.entry ∈ s.edges := by
  obtain ⟨x, hx, hxkey⟩ := List.mem_map.mp ((h.keys _).mp hemitted)
  obtain ⟨e, he, rfl⟩ := h.rows x hx
  rwa [hkey r hr e he hxkey.symm]

theorem emitted_cons (h : Emitted rows s) {r : Edge} (hr : r ∈ rows) (hnew : r.key ∉ s.emitted) :
    Emitted rows { s with emitted := r.key :: s.emitted, edges := s.edges ++ [r.entry] } where
  keys k := by
    rw [List.mem_cons, List.map_append, List.mem_append, h.keys k, List.map_singleton, List.mem_singleton, or_comm]
    rfl
  nodup := by
    rw [List.map_append, List.map_singleton]
    refine List.nodup_append.mpr ⟨h.nodup, List.nodup_singleton _, ?_⟩
    rintro k hk k' hk' rfl
    obtain rfl := List.mem_singleton.mp hk'
    exact hnew ((h.keys _).mpr hk)
  rows x hx := by
    rcases List.mem_append.mp hx with hx | hx
    · exact h.rows x hx
    · exact ⟨r, hr, (List.mem_singleton.mp hx).symm⟩

theorem exists_mem_singleton {p : Edge → Prop} {r : Edge} : (∃ r' ∈ [r], p r') ↔ p r := by
  simp only [List.mem_singleton, exists_eq_left]

/-- Emitting a row adds it to the edges, or finds it there. -/
theorem emit_spec (hkey : ∀ e ∈ rows, ∀ e' ∈ rows, e.key = e'.key → e = e') (h : Emitted rows s) {r : Edge}
    (hr : r ∈ rows) :
    Emitted rows (s.emit r.sourceUri r.targetUri r) ∧
      ∀ x, x ∈ (s.emit r.sourceUri r.targetUri r).edges ↔ x ∈ s.edges ∨ r.entry = x := by
  by_cases hemitted : r.key ∈ s.emitted
  · have heq : s.emit r.sourceUri r.targetUri r = s := if_pos (List.contains_iff_mem.mpr hemitted)
    rw [heq]
    refine ⟨h, fun x => ⟨.inl, ?_⟩⟩
    rintro (hx | rfl)
    · exact hx
    · exact entry_of_emitted hkey h hr hemitted
  · have heq : s.emit r.sourceUri r.targetUri r =
        { s with emitted := r.key :: s.emitted, edges := s.edges ++ [r.entry] } := if_neg (mt List.contains_iff_mem.mp hemitted)
    rw [heq]
    refine ⟨emitted_cons h hr hemitted, fun x => ?_⟩
    rw [List.mem_append, List.mem_singleton, @eq_comm _ x]

theorem emit_frame (source target : Text) (r : Edge) :
    (s.emit source target r).nodes = s.nodes ∧ (s.emit source target r).visited = s.visited ∧
      (s.emit source target r).nextQueue = s.nextQueue := by
  by_cases hemitted : (source, target, r.relationType) ∈ s.emitted
  · have heq : s.emit source target r = s := if_pos (List.contains_iff_mem.mpr hemitted)
    rw [heq]
    exact ⟨rfl, rfl, rfl⟩
  · have heq : s.emit source target r =
        { s with
          emitted := (source, target, r.relationType) :: s.emitted
          edges := s.edges ++ [⟨source, target, r.relationType, r.kind⟩] } := if_neg (mt List.contains_iff_mem.mp hemitted)
    rw [heq]
    exact ⟨rfl, rfl, rfl⟩

theorem enqueue_frame (uri : Text) :
    (s.enqueue uri).nodes = s.nodes ∧ (s.enqueue uri).visited = s.visited ∧ (s.enqueue uri).edges = s.edges ∧
      (s.enqueue uri).emitted = s.emitted := by
  unfold enqueue
  split <;> exact ⟨rfl, rfl, rfl, rfl⟩

theorem mem_enqueue {uri v : Text} : v ∈ (s.enqueue uri).nextQueue ↔ v ∈ s.nextQueue ∨ v ∉ s.visited ∧ uri = v := by
  unfold enqueue
  split
  · rename_i huri
    refine ⟨.inl, fun hv => hv.elim id fun hv => absurd ?_ hv.1⟩
    rwa [← hv.2]
  · rename_i huri
    rw [List.mem_append, List.mem_singleton, @eq_comm _ v]
    exact or_congr Iff.rfl ⟨fun hv => ⟨hv ▸ huri, hv⟩, And.right⟩

theorem follow_spec (hkey : ∀ e ∈ rows, ∀ e' ∈ rows, e.key = e'.key → e = e') (h : Emitted rows s) {r : Edge}
    (hr : r ∈ rows) (column : Column) :
    Followed column rows [r] s (s.follow r.sourceUri r.targetUri (r.uri column.other) r) := by
  obtain ⟨hemitted, hedges⟩ := emit_spec hkey h hr
  obtain ⟨hnodes, hvisited, hqueue⟩ := emit_frame (s := s) r.sourceUri r.targetUri r
  obtain ⟨hnodes', hvisited', hedges', hemitted'⟩ :=
    enqueue_frame (s := s.emit r.sourceUri r.targetUri r) (r.uri column.other)
  refine ⟨hnodes'.trans hnodes, hvisited'.trans hvisited, hemitted.of_edges hedges' hemitted', fun x => ?_, fun v => ?_⟩
  · rw [exists_mem_singleton, ← hedges]
    exact iff_of_eq (congrArg (x ∈ ·) hedges')
  · rw [exists_mem_singleton, ← hqueue, ← hvisited]
    exact mem_enqueue

theorem Followed.refl (h : Emitted rows s) (column : Column) : Followed column rows [] s s :=
  ⟨rfl, rfl, h, fun x => by simp, fun v => by simp⟩

/-- All the rows in which the resource stands at one end. -/
theorem foldl_follow (hkey : ∀ e ∈ rows, ∀ e' ∈ rows, e.key = e'.key → e = e') (column : Column)
    {f : Collected → Edge → Collected} (hl : ∀ r ∈ l, r ∈ rows)
    (hf : ∀ s, ∀ r ∈ l, f s r = s.follow r.sourceUri r.targetUri (r.uri column.other) r) (h : Emitted rows s) :
    Followed column rows l s (l.foldl f s) := by
  induction l generalizing s with
  | nil => exact .refl h column
  | cons r l ih =>
    have hfirst := follow_spec hkey h (hl r List.mem_cons_self) column
    rw [List.foldl_cons, hf s r List.mem_cons_self]
    have hrest := ih (fun r' hr' => hl r' (List.mem_cons_of_mem _ hr')) (fun s r' hr' => hf s r' (List.mem_cons_of_mem _ hr'))
      hfirst.emitted
    refine ⟨hrest.nodes.trans hfirst.nodes, hrest.visited.trans hfirst.visited, hrest.emitted, fun x => ?_, fun v => ?_⟩
    · rw [hrest.edges, hfirst.edges, exists_mem_singleton, List.exists_mem_cons_iff, or_assoc]
    · rw [hrest.queue, hfirst.queue, hfirst.visited, exists_mem_singleton, List.exists_mem_cons_iff, or_assoc,
        ← and_or_left]

end Collected

/-! ### One resource of a wave -/

/-- The node of a resource, none where the URI does not parse. -/
def nodeOf (d : Nat) (u : Text) : List GraphNode := (parseUri u).toList.map fun parsed => ⟨u, parsed.kind, u, d⟩

/-- What the visit of `u` in wave `d` does. -/
structure Visited (rows : List Edge) (depth d : Nat) (u : Text) (s t : Collected) : Prop where
  visited : t.visited = u :: s.visited
  nodes : t.nodes = s.nodes ++ nodeOf d u
  emitted : Emitted rows t
  edges : ∀ x, x ∈ t.edges ↔ x ∈ s.edges ∨ d < depth ∧ ∃ e ∈ rows, ∃ column : Column, e.uri column = u ∧ e.entry = x
  queue : ∀ v, v ∈ t.nextQueue ↔ v ∈ s.nextQueue ∨ d < depth ∧ v ∉ u :: s.visited ∧
    ∃ e ∈ rows, ∃ column : Column, e.uri column = u ∧ e.uri column.other = v

/-- The fetched rows hold those of `u`. -/
def Fetches (rows fetched : List Edge) (column : Column) (u : Text) : Prop :=
  ∀ e, e.uri column = u → (e ∈ fetched ↔ e ∈ rows)

theorem exists_end {rows : List Edge} {u : Text} {p : Edge → Column → Prop} :
    (∃ e ∈ rows, e.sourceUri = u ∧ p e .source) ∨ (∃ e ∈ rows, e.targetUri = u ∧ p e .target) ↔
      ∃ e ∈ rows, ∃ column : Column, e.uri column = u ∧ p e column := by
  constructor
  · rintro (⟨e, he, hu, hp⟩ | ⟨e, he, hu, hp⟩)
    · exact ⟨e, he, .source, hu, hp⟩
    · exact ⟨e, he, .target, hu, hp⟩
  · rintro ⟨e, he, column, hu, hp⟩
    cases column
    · exact .inl ⟨e, he, hu, hp⟩
    · exact .inr ⟨e, he, hu, hp⟩

theorem exists_mem_filter {rows fetched : List Edge} {column : Column} {u : Text} (h : Fetches rows fetched column u)
    {q : Edge → Bool} (hq : ∀ e, q e ↔ e.uri column = u) {p : Edge → Prop} :
    (∃ e ∈ fetched.filter q, p e) ↔ ∃ e ∈ rows, e.uri column = u ∧ p e := by
  constructor
  · rintro ⟨e, he, hp⟩
    obtain ⟨hfetched, hu⟩ := List.mem_filter.mp he
    exact ⟨e, (h e ((hq e).mp hu)).mp hfetched, (hq e).mp hu, hp⟩
  · rintro ⟨e, he, hu, hp⟩
    exact ⟨e, List.mem_filter.mpr ⟨(h e hu).mpr he, (hq e).mpr hu⟩, hp⟩

section
variable {rows : List Edge} {s : Collected} {d : Nat} {u : Text} {outgoing incoming : List Edge}

theorem visit_spec (hkey : ∀ e ∈ rows, ∀ e' ∈ rows, e.key = e'.key → e = e')
    (hparses : ∀ e ∈ rows, ∀ column : Column, (parseUri (e.uri column)).isSome) (hout : Fetches rows outgoing .source u)
    (hin : Fetches rows incoming .target u) (h : Emitted rows s) (hu : u ∉ s.visited) (hroom : (s.nodes.length : Int) < limit) :
    Visited rows depth d u s (s.visit depth limit d outgoing incoming u) := by
  rw [Collected.visit, if_neg (not_or.mpr ⟨hu, not_le.mpr hroom⟩)]
  cases hparse : parseUri u with
  | none =>
    have hnone (e : Edge) (he : e ∈ rows) (column : Column) (hc : e.uri column = u) : False := by
      have := hparses e he column
      rw [hc, hparse] at this
      cases this
    refine ⟨rfl, ?_, h.of_edges rfl rfl, fun x => ⟨.inl, ?_⟩, fun v => ⟨.inl, ?_⟩⟩
    · rw [nodeOf, hparse]
      exact (List.append_nil _).symm
    · rintro (hx | ⟨-, e, he, column, hc, -⟩)
      · exact hx
      · exact (hnone e he column hc).elim
    · rintro (hv | ⟨-, -, e, he, column, hc, -⟩)
      · exact hv
      · exact (hnone e he column hc).elim
  | some parsed =>
    have hnodes : nodeOf d u = [⟨u, parsed.kind, u, d⟩] := by rw [nodeOf, hparse]; rfl
    by_cases hdeep : depth ≤ d
    · refine Eq.mpr (congrArg _ (if_pos hdeep)) ?_
      refine ⟨rfl, by rw [hnodes], h.of_edges rfl rfl, fun x => ⟨.inl, ?_⟩, fun v => ⟨.inl, ?_⟩⟩
      · exact fun hx => hx.elim id fun hx => absurd hdeep (not_le.mpr hx.1)
      · exact fun hv => hv.elim id fun hv => absurd hdeep (not_le.mpr hv.1)
    · refine Eq.mpr (congrArg _ (if_neg hdeep)) ?_
      have hfirst := Collected.foldl_follow hkey .source (l := outgoing.filter fun r => r.sourceUri = u)
        (f := Collected.followOut u) (s := { s with visited := u :: s.visited, nodes := s.nodes ++ [⟨u, parsed.kind, u, d⟩] })
        (fun r hr => (hout r (of_decide_eq_true (List.mem_filter.mp hr).2)).mp (List.mem_filter.mp hr).1)
        (fun s r hr => by rw [← of_decide_eq_true (List.mem_filter.mp hr).2]; rfl) (h.of_edges rfl rfl)
      have hsecond := Collected.foldl_follow hkey .target (l := incoming.filter fun r => r.targetUri = u)
        (f := Collected.followIn u)
        (fun r hr => (hin r (of_decide_eq_true (List.mem_filter.mp hr).2)).mp (List.mem_filter.mp hr).1)
        (fun s r hr => by rw [← of_decide_eq_true (List.mem_filter.mp hr).2]; rfl) hfirst.emitted
      have hd : d < depth := not_le.mp hdeep
      have hsources {p : Edge → Prop} : (∃ e ∈ outgoing.filter fun r => r.sourceUri = u, p e) ↔ _ :=
        exists_mem_filter hout fun _ => decide_eq_true_iff
      have htargets {p : Edge → Prop} : (∃ e ∈ incoming.filter fun r => r.targetUri = u, p e) ↔ _ :=
        exists_mem_filter hin fun _ => decide_eq_true_iff
      refine ⟨hsecond.visited.trans hfirst.visited, hsecond.nodes.trans (hfirst.nodes.trans (by rw [hnodes])),
        hsecond.emitted, fun x => ?_, fun v => ?_⟩
      · rw [hsecond.edges, hfirst.edges, hsources, htargets, or_assoc, ← exists_end, and_iff_right hd]
        rfl
      · rw [hsecond.queue, hfirst.queue, hfirst.visited, hsources, htargets, or_assoc, ← and_or_left, ← exists_end,
          and_iff_right hd]
        rfl

end
end Akb.Graph
