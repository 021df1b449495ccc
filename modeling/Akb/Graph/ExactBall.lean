import Akb.Graph.Visits
import Mathlib.Data.Set.Card

/-! The waves collect the ball around the start, each resource at its distance, with the edges
that leave its inside, as long as the limit does not cut it. -/
namespace Akb.Graph
open Akb.Library Akb.Uri

/-- The number of edges between two resources. -/
noncomputable def distance (rows : List Edge) (start u : Text) : ℕ∞ := (resourceGraph rows).edist start u

variable (rows : List Edge) (start : Text) (depth : Nat) (limit : Int)

/-- What holds of the loop's variables at any time. -/
structure Sound (s : Collected) : Prop where
  distinct : (s.nodes.map GraphNode.uri).Nodup
  seen : ∀ n ∈ s.nodes, n.uri ∈ s.visited
  nodes : ∀ n ∈ s.nodes, n.depth ≤ depth ∧ distance rows start n.uri = n.depth ∧ (parseUri n.uri).isSome
  noded : ∀ u ∈ s.visited, (parseUri u).isSome → u ∈ s.nodes.map GraphNode.uri
  room : s.nodes.length ≤ limit.toNat
  emitted : Emitted rows s
  edges : ∀ x, x ∈ s.edges ↔
    ∃ n ∈ s.nodes, n.depth < depth ∧ ∃ e ∈ rows, ∃ column : Column, e.uri column = n.uri ∧ e.entry = x

/-- Within wave `d`: every nearer resource was visited, and the next queue holds the neighbours of
those visited at distance `d`. -/
structure InWave (d : Nat) (s : Collected) : Prop extends Sound rows start depth limit s where
  below : ∀ u, distance rows start u < d → u ∈ s.visited
  near : ∀ u ∈ s.visited, distance rows start u ≤ d
  queued : ∀ v ∈ s.nextQueue, distance rows start v ≤ (d + 1 : Nat)
  queue : d < depth → ∀ u ∈ s.visited, distance rows start u = d → ∀ v, (resourceGraph rows).Adj u v →
    v ∈ s.visited ∨ v ∈ s.nextQueue

/-- Between two waves: the nearer resources were visited, and the queue leads to those at distance `d`. -/
structure Frontier (d : Nat) (queue : List Text) (s : Collected) : Prop extends Sound rows start depth limit s where
  visited : ∀ u, u ∈ s.visited ↔ distance rows start u < d
  near : ∀ u ∈ queue, distance rows start u ≤ d
  layer : d ≤ depth → ∀ u, distance rows start u = d → u ∈ queue

variable {rows start depth limit} {s t : Collected} {d : Nat} {u : Text}

/-! ### One visit -/

theorem mem_nodeOf {n : GraphNode} :
    n ∈ nodeOf d u ↔ ∃ parsed, parseUri u = some parsed ∧ n = ⟨u, parsed.kind, u, d⟩ := by
  rw [nodeOf, List.mem_map]
  simp only [Option.mem_toList, eq_comm]

theorem uri_of_nodeOf {n : GraphNode} (h : n ∈ nodeOf d u) : n.uri = u ∧ n.depth = d ∧ (parseUri u).isSome := by
  obtain ⟨parsed, hparse, rfl⟩ := mem_nodeOf.mp h
  exact ⟨rfl, rfl, by rw [hparse]; rfl⟩

theorem length_nodeOf_le : (nodeOf d u).length ≤ 1 := by
  rw [nodeOf, List.length_map]
  cases parseUri u <;> simp

theorem nodup_nodeOf : ((nodeOf d u).map GraphNode.uri).Nodup := by
  rw [nodeOf]
  cases parseUri u <;> simp

theorem nodeOf_of_parses (h : (parseUri u).isSome) : ∃ n ∈ nodeOf d u, n.uri = u ∧ n.depth = d := by
  obtain ⟨parsed, hparse⟩ := Option.isSome_iff_exists.mp h
  exact ⟨_, mem_nodeOf.mpr ⟨parsed, hparse, rfl⟩, rfl, rfl⟩

theorem Sound.visit (h : Sound rows start depth limit s)
    (hparses : ∀ e ∈ rows, ∀ column : Column, (parseUri (e.uri column)).isSome) (hd : d ≤ depth)
    (hu : distance rows start u = d) (hnew : u ∉ s.visited) (hroom : (s.nodes.length : Int) < limit)
    (hv : Visited rows depth d u s t) : Sound rows start depth limit t where
  distinct := by
    rw [hv.nodes, List.map_append]
    refine List.nodup_append.mpr ⟨h.distinct, nodup_nodeOf, ?_⟩
    rintro a ha b hb rfl
    obtain ⟨n, hn, rfl⟩ := List.mem_map.mp ha
    obtain ⟨n', hn', heq⟩ := List.mem_map.mp hb
    rw [(uri_of_nodeOf hn').1] at heq
    exact hnew (heq ▸ h.seen n hn)
  seen n hn := by
    rw [hv.visited]
    rw [hv.nodes] at hn
    rcases List.mem_append.mp hn with hn | hn
    · exact List.mem_cons_of_mem _ (h.seen n hn)
    · exact (uri_of_nodeOf hn).1 ▸ List.mem_cons_self
  nodes n hn := by
    rw [hv.nodes] at hn
    rcases List.mem_append.mp hn with hn | hn
    · exact h.nodes n hn
    · obtain ⟨huri, hdepth, hparse⟩ := uri_of_nodeOf hn
      rw [huri, hdepth]
      exact ⟨hd, hu, hparse⟩
  noded w hw hparse := by
    rw [hv.nodes, List.map_append]
    rw [hv.visited] at hw
    rcases List.mem_cons.mp hw with rfl | hw
    · obtain ⟨n, hn, huri, -⟩ := nodeOf_of_parses hparse
      exact List.mem_append_right _ (List.mem_map.mpr ⟨n, hn, huri⟩)
    · exact List.mem_append_left _ (h.noded w hw hparse)
  room := by
    have hone : (nodeOf d u).length ≤ 1 := length_nodeOf_le
    rw [hv.nodes, List.length_append]
    omega
  emitted := hv.emitted
  edges x := by
    rw [hv.edges, h.edges, hv.nodes]
    constructor
    · rintro (⟨n, hn, hx⟩ | ⟨hdeep, e, he, column, hc, hx⟩)
      · exact ⟨n, List.mem_append_left _ hn, hx⟩
      · obtain ⟨n, hn, huri, hdepth⟩ := nodeOf_of_parses (hc ▸ hparses e he column)
        exact ⟨n, List.mem_append_right _ hn, hdepth.symm ▸ hdeep, e, he, column, hc.trans huri.symm, hx⟩
    · rintro ⟨n, hn, hdeep, e, he, column, hc, hx⟩
      rcases List.mem_append.mp hn with hn | hn
      · exact .inl ⟨n, hn, hdeep, e, he, column, hc, hx⟩
      · obtain ⟨huri, hdepth, -⟩ := uri_of_nodeOf hn
        exact .inr ⟨hdepth ▸ hdeep, e, he, column, hc.trans huri, hx⟩

theorem InWave.visit (h : InWave rows start depth limit d s)
    (hparses : ∀ e ∈ rows, ∀ column : Column, (parseUri (e.uri column)).isSome) (hd : d ≤ depth)
    (hu : distance rows start u = d) (hnew : u ∉ s.visited) (hroom : (s.nodes.length : Int) < limit)
    (hv : Visited rows depth d u s t) : InWave rows start depth limit d t where
  toSound := h.toSound.visit hparses hd hu hnew hroom hv
  below w hw := by
    rw [hv.visited]
    exact List.mem_cons_of_mem _ (h.below w hw)
  near w hw := by
    rw [hv.visited] at hw
    rcases List.mem_cons.mp hw with rfl | hw
    · exact hu.le
    · exact h.near w hw
  queued v hqueue := by
    rcases (hv.queue v).mp hqueue with hqueue | ⟨-, hout, e, he, column, hc, hother⟩
    · exact h.queued v hqueue
    · have hne : u ≠ v := fun heq => hout (heq ▸ List.mem_cons_self)
      exact edist_le_of_adj (adj_of_row he hc hother hne) hu.le
  queue hdeep w hw hdist v hadj := by
    rw [hv.visited] at hw ⊢
    rw [hv.queue]
    by_cases hvisited : v ∈ u :: s.visited
    · exact .inl hvisited
    rcases List.mem_cons.mp hw with rfl | hw
    · obtain ⟨e, he, column, hc, hother⟩ := row_of_adj hadj
      exact .inr (.inr ⟨hdeep, hvisited, e, he, column, hc, hother⟩)
    · rcases h.queue hdeep w hw hdist v hadj with hseen | hnext
      · exact .inl (List.mem_cons_of_mem _ hseen)
      · exact .inr (.inl hnext)

/-! ### A wave -/

variable {outgoing incoming : List Edge} {l : List Text}

/-- The resources of a wave in turn, until the limit is reached. -/
theorem InWave.visits (h : InWave rows start depth limit d s)
    (hkey : ∀ e ∈ rows, ∀ e' ∈ rows, e.key = e'.key → e = e')
    (hparses : ∀ e ∈ rows, ∀ column : Column, (parseUri (e.uri column)).isSome) (hd : d ≤ depth)
    (hl : ∀ u ∈ l, distance rows start u = d) (hout : ∀ u ∈ l, Fetches rows outgoing .source u)
    (hin : ∀ u ∈ l, Fetches rows incoming .target u) :
    InWave rows start depth limit d (l.foldl (Collected.visit depth limit d outgoing incoming) s) ∧
      (∀ u ∈ s.visited, u ∈ (l.foldl (Collected.visit depth limit d outgoing incoming) s).visited) ∧
      s.nodes.length ≤ (l.foldl (Collected.visit depth limit d outgoing incoming) s).nodes.length ∧
      ((∀ u ∈ l, u ∈ (l.foldl (Collected.visit depth limit d outgoing incoming) s).visited) ∨
        limit ≤ (l.foldl (Collected.visit depth limit d outgoing incoming) s).nodes.length) := by
  induction l generalizing s with
  | nil => exact ⟨h, fun _ hu => hu, le_refl _, .inl fun _ hu => absurd hu List.not_mem_nil⟩
  | cons u l ih =>
    have hfirst : InWave rows start depth limit d (s.visit depth limit d outgoing incoming u) ∧
        (∀ w ∈ s.visited, w ∈ (s.visit depth limit d outgoing incoming u).visited) ∧
        s.nodes.length ≤ (s.visit depth limit d outgoing incoming u).nodes.length ∧
        (u ∈ (s.visit depth limit d outgoing incoming u).visited ∨
          limit ≤ (s.visit depth limit d outgoing incoming u).nodes.length) := by
      by_cases hskip : u ∈ s.visited ∨ limit ≤ s.nodes.length
      · rw [Collected.visit, if_pos hskip]
        exact ⟨h, fun _ hw => hw, le_refl _, hskip⟩
      · obtain ⟨hnew, hroom⟩ := not_or.mp hskip
        have hv : Visited rows depth d u s (s.visit depth limit d outgoing incoming u) :=
          visit_spec hkey hparses (hout u List.mem_cons_self) (hin u List.mem_cons_self) h.emitted hnew
            (not_le.mp hroom)
        refine ⟨h.visit hparses hd (hl u List.mem_cons_self) hnew (not_le.mp hroom) hv, ?_, ?_, .inl ?_⟩
        · intro w hw
          rw [hv.visited]
          exact List.mem_cons_of_mem _ hw
        · rw [hv.nodes, List.length_append]
          exact Nat.le_add_right _ _
        · rw [hv.visited]
          exact List.mem_cons_self
    obtain ⟨hwave, hvisited, hlength, hu⟩ := hfirst
    obtain ⟨hwave', hvisited', hlength', hl'⟩ := ih hwave (fun w hw => hl w (List.mem_cons_of_mem _ hw))
      (fun w hw => hout w (List.mem_cons_of_mem _ hw)) (fun w hw => hin w (List.mem_cons_of_mem _ hw))
    refine ⟨hwave', fun w hw => hvisited' w (hvisited w hw), le_trans hlength hlength', ?_⟩
    rcases hl' with hl' | hfull
    · rcases hu with hu | hfull
      · refine .inl fun w hw => ?_
        rcases List.mem_cons.mp hw with rfl | hw
        · exact hvisited' _ hu
        · exact hl' w hw
      · exact .inr (le_trans hfull (by exact_mod_cast hlength'))
    · exact .inr hfull

theorem Sound.nextQueue (h : Sound rows start depth limit s) (queue : List Text) :
    Sound rows start depth limit { s with nextQueue := queue } :=
  ⟨h.distinct, h.seen, h.nodes, h.noded, h.room, h.emitted.of_edges rfl rfl, h.edges⟩

theorem Frontier.inWave {queue : List Text} (h : Frontier rows start depth limit d queue s) :
    InWave rows start depth limit d { s with nextQueue := [] } where
  toSound := h.toSound.nextQueue []
  below u hu := (h.visited u).mpr hu
  near u hu := ((h.visited u).mp hu).le
  queued _ hv := absurd hv List.not_mem_nil
  queue _ u hu hdist := absurd hdist ((h.visited u).mp hu).ne

/-- A wave that visited its whole layer leads to the next one. -/
theorem InWave.frontier (h : InWave rows start depth limit d t) (hlayer : ∀ u, distance rows start u = d → u ∈ t.visited) :
    Frontier rows start depth limit (d + 1) t.nextQueue t where
  toSound := h.toSound
  visited u := by
    constructor
    · intro hu
      exact lt_of_le_of_lt (h.near u hu) (by exact_mod_cast Nat.lt_succ_self d)
    · intro hu
      have hle : distance rows start u ≤ d := by
        rw [Nat.cast_add, Nat.cast_one] at hu
        exact Order.le_of_lt_add_one hu
      rcases hle.lt_or_eq with hlt | heq
      · exact h.below u hlt
      · exact hlayer u heq
  near := h.queued
  layer hdeep u hu := by
    obtain ⟨w, hadj, hw⟩ := exists_adj_of_edist hu
    rcases h.queue hdeep w (hlayer w hw) hw u hadj with hvisited | hnext
    · have hle := h.near u hvisited
      rw [hu] at hle
      exact absurd (by exact_mod_cast hle) (Nat.not_succ_le_self d)
    · exact hnext

/-! ### The loop -/

variable {order : RowOrder} {edges : Edges} {vaultId : Uuid} {vaultName : Text}

theorem waves_full (h : limit ≤ s.nodes.length) (turns : Nat) (queue : List Text) :
    waves order edges vaultId vaultName depth limit d turns queue s = s := by
  cases turns with
  | zero => rfl
  | succ turns => exact if_pos (.inr h)

theorem waves_done {turns : Nat} {queue : List Text} (hgo : ¬ (queue = [] ∨ limit ≤ s.nodes.length))
    (h : queue.filter (fun u => u ∉ s.visited) = []) :
    waves order edges vaultId vaultName depth limit d (turns + 1) queue s = s := (if_neg hgo).trans (if_pos h)

theorem waves_next {turns : Nat} {queue : List Text} (hgo : ¬ (queue = [] ∨ limit ≤ s.nodes.length))
    (h : queue.filter (fun u => u ∉ s.visited) ≠ []) :
    waves order edges vaultId vaultName depth limit d (turns + 1) queue s =
      waves order edges vaultId vaultName depth limit (d + 1) turns
        (wave order edges vaultId vaultName depth limit d (queue.filter fun u => u ∉ s.visited) s).nextQueue
        (wave order edges vaultId vaultName depth limit d (queue.filter fun u => u ∉ s.visited) s) :=
  (if_neg hgo).trans (if_neg h)

/-- The loop ends with every resource within the depth visited, or with the limit reached. -/
theorem waves_spec {rows : List Edge} (hrows : rows = visibleEdges edges vaultId vaultName) {turns : Nat}
    {queue : List Text} (hturns : d + turns = depth + 1) (h : Frontier rows start depth limit d queue s) :
    Sound rows start depth limit (waves order edges vaultId vaultName depth limit d turns queue s) ∧
      ((∀ u, distance rows start u ≤ depth →
          u ∈ (waves order edges vaultId vaultName depth limit d turns queue s).visited) ∨
        limit ≤ (waves order edges vaultId vaultName depth limit d turns queue s).nodes.length) := by
  induction turns generalizing d queue s with
  | zero =>
    refine ⟨h.toSound, .inl fun u hu => (h.visited u).mpr (lt_of_le_of_lt hu ?_)⟩
    exact_mod_cast (show depth < d by omega)
  | succ turns ih =>
    have hd : d ≤ depth := by omega
    have hdone (hempty : ∀ u, distance rows start u ≠ d) : ∀ u, distance rows start u ≤ depth → u ∈ s.visited :=
      fun u hu => (h.visited u).mpr (edist_lt_of_no_layer hempty hu)
    by_cases hstop : queue = [] ∨ limit ≤ s.nodes.length
    · rw [waves, if_pos hstop]
      refine ⟨h.toSound, hstop.imp (fun hqueue => hdone fun u hu => ?_) id⟩
      exact absurd (h.layer hd u hu) (hqueue ▸ List.not_mem_nil)
    have hmem (u : Text) : u ∈ queue.filter (fun u => u ∉ s.visited) ↔ u ∈ queue ∧ u ∉ s.visited := by
      rw [List.mem_filter, decide_eq_true_iff]
    have hdist (u : Text) (hu : u ∈ queue.filter fun u => u ∉ s.visited) : distance rows start u = d :=
      le_antisymm (h.near u ((hmem u).mp hu).1) (not_lt.mp fun hlt => ((hmem u).mp hu).2 ((h.visited u).mpr hlt))
    have hlayer (u : Text) (hu : distance rows start u = d) : u ∈ queue.filter fun u => u ∉ s.visited :=
      (hmem u).mpr ⟨h.layer hd u hu, fun hvisited => ((h.visited u).mp hvisited).ne hu⟩
    by_cases hunvisited : queue.filter (fun u => u ∉ s.visited) = []
    · rw [waves_done hstop hunvisited]
      refine ⟨h.toSound, .inl (hdone fun u hu => ?_)⟩
      exact absurd (hlayer u hu) (hunvisited ▸ List.not_mem_nil)
    have hfetches (column : Column) (u : Text) (hu : u ∈ queue.filter fun u => u ∉ s.visited) :
        Fetches rows (fetchEdges order edges vaultId vaultName d column (queue.filter fun u => u ∉ s.visited)) column u := by
      intro e he
      rw [mem_fetchEdges, hrows, he]
      exact and_iff_left hu
    obtain ⟨hwave, hall⟩ : InWave rows start depth limit d
          (wave order edges vaultId vaultName depth limit d (queue.filter fun u => u ∉ s.visited) s) ∧
        ((∀ u ∈ queue.filter (fun u => u ∉ s.visited),
            u ∈ (wave order edges vaultId vaultName depth limit d (queue.filter fun u => u ∉ s.visited) s).visited) ∨
          limit ≤ (wave order edges vaultId vaultName depth limit d (queue.filter fun u => u ∉ s.visited) s).nodes.length) := by
      obtain ⟨hwave, -, -, hall⟩ := h.inWave.visits (hrows ▸ fun e he e' he' => visible_key he he')
        (hrows ▸ fun e he => visible_parses he) hd hdist (hfetches .source) (hfetches .target)
      exact ⟨hwave, hall⟩
    rw [waves_next hstop hunvisited]
    rcases hall with hall | hfull
    · exact ih (by omega) (hwave.frontier fun u hu => hall u (hlayer u hu))
    · rw [waves_full hfull]
      exact ⟨hwave.toSound, .inr hfull⟩

theorem frontier_start (rows : List Edge) (start : Text) (depth : Nat) (limit : Int) :
    Frontier rows start depth limit 0 [start] Collected.empty where
  distinct := List.nodup_nil
  seen _ hn := absurd hn List.not_mem_nil
  nodes _ hn := absurd hn List.not_mem_nil
  noded _ hu := absurd hu List.not_mem_nil
  room := Nat.zero_le _
  emitted := ⟨fun _ => iff_of_false List.not_mem_nil List.not_mem_nil, List.nodup_nil, fun _ hx => absurd hx List.not_mem_nil⟩
  edges x := iff_of_false List.not_mem_nil (by rintro ⟨n, hn, -⟩; exact List.not_mem_nil hn)
  visited u := iff_of_false List.not_mem_nil (by simp)
  near u hu := by
    obtain rfl := List.mem_singleton.mp hu
    exact (SimpleGraph.edist_self).le
  layer _ u hu := by
    rw [SimpleGraph.edist_eq_zero_iff.mp (hu.trans Nat.cast_zero)]
    exact List.mem_singleton_self u

/-! ### The reply -/

theorem GraphNode.named_frame (names : Text → Option Text) (n : GraphNode) :
    (n.named names).uri = n.uri ∧ (n.named names).depth = n.depth := by
  unfold GraphNode.named
  split <;> exact ⟨rfl, rfl⟩

theorem map_named (names : Text → Option Text) (nodes : List GraphNode) :
    (nodes.map (GraphNode.named names)).map GraphNode.uri = nodes.map GraphNode.uri := by
  rw [List.map_map]
  exact List.map_congr_left fun n _ => (n.named_frame names).1

/-- A full list of nodes from a ball that has no more resources is the ball. -/
theorem Sound.ball_of_full (h : Sound rows start depth limit s) (hball : (ball rows start depth).encard ≤ limit.toNat)
    (hfull : limit ≤ s.nodes.length) : ∀ u, u ∈ ball rows start depth → u ∈ s.nodes.map GraphNode.uri := by
  have hsubset : {u | u ∈ s.nodes.map GraphNode.uri} ⊆ ball rows start depth := by
    intro u hu
    obtain ⟨n, hn, rfl⟩ := List.mem_map.mp hu
    obtain ⟨hdepth, hdist, hparse⟩ := h.nodes n hn
    exact ⟨hparse, hdist.le.trans (by exact_mod_cast hdepth)⟩
  have hcard : {u | u ∈ s.nodes.map GraphNode.uri}.encard = s.nodes.length := by
    have := Set.encard_coe_eq_coe_finsetCard (s.nodes.map GraphNode.uri).toFinset
    rw [List.coe_toFinset, List.toFinset_card_of_nodup h.distinct, List.length_map] at this
    exact this
  have hle : (ball rows start depth).encard ≤ {u | u ∈ s.nodes.map GraphNode.uri}.encard := by
    rw [hcard]
    refine hball.trans ?_
    exact_mod_cast Int.toNat_le.mpr hfull
  have hfinite : (ball rows start depth).Finite := Set.finite_of_encard_le_coe hball
  have heq := (hfinite.subset hsubset).eq_of_subset_of_encard_le hsubset hle
  intro u hu
  rw [← heq] at hu
  exact hu

/-- At most `limit` nodes, joined by the edges of the reply. -/
structure Neighbourhood.Bounded (limit : Int) (r : Neighbourhood) : Prop where
  nodes : r.nodes.length ≤ limit.toNat
  joined : ∀ x ∈ r.edges, x.source ∈ r.nodes.map GraphNode.uri ∧ x.target ∈ r.nodes.map GraphNode.uri

/-- The resources of the ball, each once and at its distance, and the edges with an end nearer than
`hops`, each once. -/
structure Neighbourhood.Exact (rows : List Edge) (start : Text) (hops : Nat) (r : Neighbourhood) : Prop where
  once : (r.nodes.map GraphNode.uri).Nodup
  nodes : ∀ u, u ∈ r.nodes.map GraphNode.uri ↔ u ∈ ball rows start hops
  depths : ∀ n ∈ r.nodes, distance rows start n.uri = n.depth
  edgesOnce : (r.edges.map GraphEdge.key).Nodup
  edges : ∀ x, x ∈ r.edges ↔
    ∃ e ∈ rows, e.entry = x ∧ (distance rows start e.sourceUri < hops ∨ distance rows start e.targetUri < hops)

/-- Both ends of an edge that leaves the inside of the ball lie in it. -/
theorem ends_in_ball {rows : List Edge} {start : Text} {hops : Nat} {e : Edge} (he : e ∈ rows)
    (hparses : ∀ e ∈ rows, ∀ column : Column, (parseUri (e.uri column)).isSome) (column : Column)
    (h : distance rows start (e.uri column) < hops) : ∀ c : Column, e.uri c ∈ ball rows start hops := by
  have hother : distance rows start (e.uri column.other) ≤ hops := by
    by_cases hloop : e.uri column = e.uri column.other
    · exact hloop ▸ h.le
    · obtain ⟨m, hm⟩ := ENat.ne_top_iff_exists.mp h.ne_top
      have hle : m + 1 ≤ hops := by exact_mod_cast hm ▸ h
      exact (edist_le_of_adj (adj_of_row he rfl rfl hloop) hm.symm.le).trans (by exact_mod_cast hle)
  intro c
  refine ⟨hparses e he c, ?_⟩
  cases column <;> cases c
  · exact h.le
  · exact hother
  · exact hother
  · exact h.le

/-- However the rows come back and wherever the start lies. -/
theorem bfsCollect_exact (order : RowOrder) (edges : Edges) (vaultId : Uuid) (vaultName start : Text) (hops : Nat)
    (limit : Int) (names : List (Text × Kind) → Text → Option Text) :
    (bfsCollect order edges vaultId vaultName hops limit names start).Bounded limit ∧
      ((ball (visibleEdges edges vaultId vaultName) start hops).encard ≤ limit.toNat →
        (bfsCollect order edges vaultId vaultName hops limit names start).Exact
          (visibleEdges edges vaultId vaultName) start hops) := by
  obtain ⟨hsound, hall⟩ := @waves_spec start hops limit Collected.empty 0 order edges vaultId vaultName _ rfl (hops + 1)
    [start] (Nat.zero_add _) (frontier_start (visibleEdges edges vaultId vaultName) start hops limit)
  refine ⟨⟨?_, fun x hx => ?_⟩, fun hball => ?_⟩
  · exact (List.length_map _).trans_le hsound.room
  · obtain ⟨hsource, htarget⟩ := Bool.and_eq_true_iff.mp (List.mem_filter.mp hx).2
    rw [bfsCollect, map_named]
    exact ⟨of_decide_eq_true hsource, of_decide_eq_true htarget⟩
  have hparses (e : Edge) (he : e ∈ visibleEdges edges vaultId vaultName) (column : Column) :
      (parseUri (e.uri column)).isSome := visible_parses he column
  generalize hs : waves order edges vaultId vaultName hops limit 0 (hops + 1) [start] Collected.empty = s at hsound hall
  have hnodes (u : Text) : u ∈ s.nodes.map GraphNode.uri ↔ u ∈ ball (visibleEdges edges vaultId vaultName) start hops := by
    constructor
    · intro hu
      obtain ⟨n, hn, rfl⟩ := List.mem_map.mp hu
      obtain ⟨hdepth, hdist, hparse⟩ := hsound.nodes n hn
      exact ⟨hparse, hdist.le.trans (by exact_mod_cast hdepth)⟩
    · intro hu
      rcases hall with hall | hfull
      · exact hsound.noded u (hall u hu.2) hu.1
      · exact hsound.ball_of_full hball hfull u hu
  have hedges (x : GraphEdge) : x ∈ s.edges ↔ ∃ e ∈ visibleEdges edges vaultId vaultName, e.entry = x ∧
      (distance (visibleEdges edges vaultId vaultName) start e.sourceUri < hops ∨
        distance (visibleEdges edges vaultId vaultName) start e.targetUri < hops) := by
    rw [hsound.edges]
    constructor
    · rintro ⟨n, hn, hdeep, e, he, column, hc, rfl⟩
      have hnear : distance (visibleEdges edges vaultId vaultName) start (e.uri column) < hops := by
        rw [hc, (hsound.nodes n hn).2.1]
        exact_mod_cast hdeep
      cases column
      · exact ⟨e, he, rfl, .inl hnear⟩
      · exact ⟨e, he, rfl, .inr hnear⟩
    · rintro ⟨e, he, rfl, hnear⟩
      obtain ⟨column, hnear⟩ : ∃ column : Column,
          distance (visibleEdges edges vaultId vaultName) start (e.uri column) < hops := by
        rcases hnear with hnear | hnear
        · exact ⟨.source, hnear⟩
        · exact ⟨.target, hnear⟩
      obtain ⟨n, hn, huri⟩ := List.mem_map.mp ((hnodes _).mpr (ends_in_ball he hparses _ hnear column))
      rw [← huri, (hsound.nodes n hn).2.1] at hnear
      exact ⟨n, hn, by exact_mod_cast hnear, e, he, column, huri.symm, rfl⟩
  have hreply : bfsCollect order edges vaultId vaultName hops limit names start =
      ⟨s.nodes.map (GraphNode.named (names (s.nodes.map fun n => (n.uri, n.resourceType)))), s.edges⟩ := by
    rw [bfsCollect, hs, Neighbourhood.mk.injEq]
    refine ⟨rfl, List.filter_eq_self.mpr fun x hx => ?_⟩
    obtain ⟨e, he, rfl, hnear⟩ := (hedges x).mp hx
    have hends : ∀ c : Column, e.uri c ∈ ball (visibleEdges edges vaultId vaultName) start hops := by
      rcases hnear with hnear | hnear
      · exact ends_in_ball he hparses .source hnear
      · exact ends_in_ball he hparses .target hnear
    exact Bool.and_eq_true_iff.mpr
      ⟨decide_eq_true ((hnodes _).mpr (hends .source)), decide_eq_true ((hnodes _).mpr (hends .target))⟩
  rw [hreply]
  refine ⟨?_, ?_, fun n hn => ?_, hsound.emitted.nodup, hedges⟩
  · rw [map_named]
    exact hsound.distinct
  · rw [map_named]
    exact hnodes
  · obtain ⟨m, hm, rfl⟩ := List.mem_map.mp hn
    rw [(m.named_frame _).1, (m.named_frame _).2]
    exact (hsound.nodes m hm).2.1

end Akb.Graph
