import LoopNest.Proofs.Graph.Topological
/-!
# Proofs.Graph.Backtracking — one search that takes back what it tried

The topological orders come from one record that a search changes and changes back: the parents that every node waits
for are counted down when a node is placed and up again when it is taken off (`Trial.lift_put`), and a finished order is
handed to a consumer that may want no more.  While the counts are right (`Trial.Counts`), the nodes that a search can
place next are the ready ones of the agenda, so it hands on the completions of that agenda one after the other, and
leaves the record as it found it (`Trial.Counts.handsOn`).  A consumer that keeps the orders that fit, up to a limit,
ends with what the agenda gives for that limit (`WellFormed.enumerate_keep`).
-/
namespace LoopNest

theorem lookup_map {α β : Type} [BEq α] [LawfulBEq α] {f : α → β} {n : α} : ∀ ls : List α,
    List.lookup n (ls.map (fun l => (l, f l))) = if n ∈ ls then some (f n) else none
  | [] => rfl
  | l :: ls => by
    rw [List.map_cons, List.lookup_cons, lookup_map ls]
    by_cases h : n = l
    · subst h; simp
    · have hb : (n == l) = false := by simpa using h
      simp [hb, h]

/-! ## Consumers -/

section

variable {σ β : Type} {take : σ → β → Bool × σ}

/-- **Handing a list to a consumer** one member after the other, while it wants more.  Tells whether it still does, and
what it made of them. -/
def feed (take : σ → β → Bool × σ) : σ → List β → Bool × σ
  | s, [] => (true, s)
  | s, b :: bs => if (take s b).1 then feed take (take s b).2 bs else take s b

theorem feed_singleton (s : σ) (b : β) : feed take s [b] = take s b := by
  rw [feed, feed]
  split
  · rename_i h; rw [← h]
  · rfl

theorem feed_append (bs : List β) : ∀ (as : List β) (s : σ),
    feed take s (as ++ bs) = if (feed take s as).1 then feed take (feed take s as).2 bs else feed take s as
  | [], s => by rw [List.nil_append, feed, if_pos rfl]
  | a :: as, s => by
    rw [List.cons_append, feed, feed]
    by_cases h : (take s a).1 = true
    · rw [if_pos h, if_pos h]; exact feed_append bs as _
    · rw [if_neg h, if_neg h, if_neg h]

/-- The consumer that keeps what passes a test, until it has `limit` of them. -/
def keep (test : β → Bool) (limit : Nat) (kept : List β) (b : β) : Bool × List β :=
  if limit ≤ kept.length then (false, kept)
  else if test b then (decide (kept.length + 1 < limit), kept ++ [b])
  else (true, kept)

theorem snd_feed_keep (test : β → Bool) (limit : Nat) : ∀ (bs kept : List β),
    (feed (keep test limit) kept bs).2 = kept ++ (bs.filter test).take (limit - kept.length)
  | [], kept => by simp [feed]
  | b :: bs, kept => by
    have ih := snd_feed_keep test limit bs
    rw [feed]
    by_cases hfull : limit ≤ kept.length
    · have hkeep : keep test limit kept b = (false, kept) := by rw [keep, if_pos hfull]
      rw [hkeep, if_neg Bool.false_ne_true, Nat.sub_eq_zero_of_le hfull, List.take_zero, List.append_nil]
    · by_cases htest : test b = true
      · have hkeep : keep test limit kept b = (decide (kept.length + 1 < limit), kept ++ [b]) := by
          rw [keep, if_neg hfull, if_pos htest]
        have hroom : limit - kept.length = limit - (kept.length + 1) + 1 := by omega
        rw [hkeep, List.filter_cons_of_pos htest, hroom, List.take_succ_cons]
        dsimp only
        split
        · rw [ih, List.length_append, List.length_singleton, List.append_assoc, List.singleton_append]
        · rename_i hlast
          have hfull' : limit - (kept.length + 1) = 0 := by
            have : ¬ kept.length + 1 < limit := by simpa using hlast
            omega
          rw [hfull', List.take_zero]
      · have hkeep : keep test limit kept b = (true, kept) := by rw [keep, if_neg hfull, if_neg htest]
        rw [hkeep, if_pos rfl, ih, List.filter_cons_of_neg htest]

end

/-! ## The search -/

/-- **The record of a search**: how many parents each node waits for, which nodes are placed, the order so far, and what
the consumer made of the orders it was handed. -/
structure Trial (α σ : Type) where
  waiting : List (α × Int)
  placed : List α
  trail : List α
  taken : σ

namespace Trial

variable {α σ : Type} [DecidableEq α] {take : σ → List α → Bool × σ}

/-- The counts with the one of `c` changed by `k`. -/
def shift (k : Int) (waiting : List (α × Int)) (c : α) : List (α × Int) :=
  waiting.map (fun e => if e.1 = c then (e.1, e.2 + k) else e)

/-- **Placing a node**: its children wait for one parent less. -/
def put (g : Graph α) (t : Trial α σ) (n : α) : Trial α σ :=
  { t with
    waiting := (g.children n).foldl (shift (-1)) t.waiting
    placed := n :: t.placed
    trail := t.trail ++ [n] }

/-- **Taking the last node off again**: its children wait for one parent more. -/
def lift (g : Graph α) (t : Trial α σ) (n : α) : Trial α σ :=
  { t with
    waiting := (g.children n).foldl (shift 1) t.waiting
    placed := t.placed.filter (fun m => decide (m ≠ n))
    trail := t.trail.dropLast }

/-- Whether a node can be placed next. -/
def free (t : Trial α σ) (n : α) : Bool := decide (n ∉ t.placed) && decide ((t.waiting.lookup n).getD 0 = 0)

/-- **Trying a node**, if it can be placed and more is wanted: places it, searches on from there and takes it off. -/
def attempt (g : Graph α) (search : Trial α σ → Bool × Trial α σ) (r : Bool × Trial α σ) (n : α) : Bool × Trial α σ :=
  if r.1 && r.2.free n then
    let s := search (r.2.put g n)
    (s.1, s.2.lift g n)
  else r

/-- **The search with `left` nodes to place**: hands a finished order to the consumer, and else tries one node after the
other, oldest first. -/
def walk (g : Graph α) (take : σ → List α → Bool × σ) : Nat → Trial α σ → Bool × Trial α σ
  | 0, t => ((take t.taken t.trail).1, { t with taken := (take t.taken t.trail).2 })
  | left + 1, t => g.nodes.foldl (attempt g (walk g take left)) (true, t)

/-- The record before anything is placed. -/
def start (g : Graph α) (s : σ) : Trial α σ := ⟨g.nodes.map (fun n => (n, (g.inDegree n : Int))), [], [], s⟩

/-! ## Taking back -/

theorem foldl_shift (k : Int) : ∀ (cs : List α) (waiting : List (α × Int)),
    cs.foldl (shift k) waiting = waiting.map (fun e => (e.1, e.2 + k * cs.count e.1))
  | [], waiting => by simp
  | c :: cs, waiting => by
    rw [List.foldl_cons, foldl_shift k cs, shift, List.map_map]
    refine List.map_congr_left (fun e _ => ?_)
    by_cases h : e.1 = c
    · have hsum : e.2 + k + k * (cs.count c : Int) = e.2 + k * ((cs.count c + 1 : Nat) : Int) := by
        rw [Int.natCast_add, Int.mul_add, Int.natCast_one, Int.mul_one]
        omega
      simp only [Function.comp_apply, h, if_true, List.count_cons_self, hsum]
    · simp only [Function.comp_apply, if_neg h, List.count_cons_of_ne (Ne.symm h)]

/-- **Taking a node off undoes placing it**, whatever the consumer was handed in between. -/
theorem lift_put (g : Graph α) (t : Trial α σ) {n : α} (hn : n ∉ t.placed) (s : σ) :
    lift g { t.put g n with taken := s } n = { t with taken := s } := by
  have hwaiting : (g.children n).foldl (shift 1) ((g.children n).foldl (shift (-1)) t.waiting) = t.waiting := by
    rw [foldl_shift, foldl_shift, List.map_map]
    conv => rhs; rw [← List.map_id t.waiting]
    refine List.map_congr_left (fun e _ => Prod.ext rfl ?_)
    simp only [Function.comp_apply, id_eq]
    omega
  have hplaced : (n :: t.placed).filter (fun m => decide (m ≠ n)) = t.placed := by
    rw [List.filter_cons_of_neg (by simp)]
    exact List.filter_eq_self.2 (fun m hm => decide_eq_true (fun h => hn (h ▸ hm)))
  simp only [lift, put, hwaiting, hplaced, List.dropLast_concat]

end Trial

/-! ## What is left to place -/

namespace Graph

variable {α σ : Type} [DecidableEq α] {g : Graph α} {take : σ → List α → Bool × σ}

/-- The parents of a node that are not on a trail. -/
def missing (g : Graph α) (trail : List α) (n : α) : List α := (g.parents n).filter (fun p => decide (p ∉ trail))

/-- **The agenda after the nodes of a trail were placed.** -/
def agendaAfter (g : Graph α) (trail : List α) : Agenda α :=
  (g.nodes.filter (fun n => decide (n ∉ trail))).map (fun n => (n, g.missing trail n))

theorem missing_nil (g : Graph α) (n : α) : g.missing [] n = g.parents n := List.filter_eq_self.2 (fun _ _ => by simp)

theorem agendaAfter_nil (g : Graph α) : g.agendaAfter [] = g.agenda := by
  unfold agendaAfter agenda
  rw [List.filter_eq_self.2 (fun _ _ => by simp)]
  exact List.map_congr_left (fun n _ => by rw [missing_nil])

theorem filter_concat (trail l : List α) (n : α) : l.filter (fun m => decide (m ∉ trail ++ [n])) =
    (l.filter (fun m => decide (m ∉ trail))).filter (fun m => decide (m ≠ n)) := by
  rw [List.filter_filter]
  exact List.filter_congr (fun m _ => by simp [and_comm])

theorem place_agendaAfter (g : Graph α) (trail : List α) (n : α) :
    (g.agendaAfter trail).place n = g.agendaAfter (trail ++ [n]) := by
  unfold agendaAfter Agenda.place
  rw [filter_concat, List.filter_map, List.map_map]
  refine List.map_congr_left (fun m _ => ?_)
  simp only [Function.comp_def, missing, filter_concat]

theorem WellFormed.length_missing_concat (hg : g.WellFormed) {trail : List α} {n : α} (hn : n ∉ trail) (m : α) :
    ((g.missing (trail ++ [n]) m).length : Int) = (g.missing trail m).length + -1 * (g.children n).count m := by
  have hmem : n ∈ g.missing trail m ↔ m ∈ g.children n := by
    rw [missing, List.mem_filter, mem_parents, mem_children]
    simp [hn]
  have hnodup : (g.missing trail m).Nodup := (hg.nodup_parents m).filter _
  have hcount := (hg.nodup_children n).count (a := m)
  rw [missing, filter_concat, ← missing, Agenda.length_filter_ne hnodup, hcount]
  by_cases h : m ∈ g.children n
  · have hpos := List.length_pos_of_mem (hmem.2 h)
    rw [if_pos (hmem.2 h), if_pos h]
    omega
  · rw [if_neg (fun hn => h (hmem.1 hn)), if_neg h]
    simp

/-- The completions with the trail in front, by the node that comes next. -/
theorem completions_agendaAfter {trail : List α} (hopen : g.agendaAfter trail ≠ []) :
    (g.agendaAfter trail).completions.map (fun o => trail ++ o) =
      (g.nodes.filter (fun n => decide (n ∉ trail) && (g.missing trail n).isEmpty)).flatMap (fun n =>
        (g.agendaAfter (trail ++ [n])).completions.map (fun o => (trail ++ [n]) ++ o)) := by
  have hready : (g.agendaAfter trail).filter Agenda.ready =
      (g.nodes.filter (fun n => decide (n ∉ trail) && (g.missing trail n).isEmpty)).map
        (fun n => (n, g.missing trail n)) := by
    unfold agendaAfter
    rw [List.filter_map, List.filter_filter]
    congr 1
    exact List.filter_congr (fun n _ => Bool.and_comm _ _)
  rw [Agenda.completions_of_ne_nil hopen, hready, List.flatMap_map, List.map_flatMap]
  congr 1
  funext n
  rw [place_agendaAfter, List.map_map]
  exact List.map_congr_left (fun o _ => by simp)

end Graph

/-! ## The search and the agenda -/

namespace Trial

open LoopNest.Graph (agendaAfter)

variable {α σ : Type} [DecidableEq α] {g : Graph α} {take : σ → List α → Bool × σ} {t : Trial α σ}

/-- **The record counts right**: what is marked is what is on the trail, and every node waits for its parents that are
not. -/
structure Counts (g : Graph α) (t : Trial α σ) : Prop where
  waiting : t.waiting = g.nodes.map (fun n => (n, ((g.missing t.trail n).length : Int)))
  placed : ∀ n, n ∈ t.placed ↔ n ∈ t.trail

theorem counts_start (g : Graph α) (s : σ) : (start g s).Counts g where
  waiting := List.map_congr_left (fun n _ => by rw [start, Graph.missing_nil, Graph.inDegree])
  placed _ := Iff.rfl

theorem Counts.put (h : t.Counts g) (hg : g.WellFormed) {n : α} (hn : n ∉ t.trail) : (t.put g n).Counts g where
  waiting := by
    show (g.children n).foldl (shift (-1)) t.waiting = _
    rw [foldl_shift, h.waiting, List.map_map]
    exact List.map_congr_left (fun m _ => by rw [Trial.put, hg.length_missing_concat hn]; rfl)
  placed m := by
    simp [Trial.put, h.placed, or_comm]

/-- The nodes that can be placed next are those that wait for nothing. -/
theorem Counts.free_iff (h : t.Counts g) {n : α} (hn : n ∈ g.nodes) :
    t.free n = (decide (n ∉ t.trail) && (g.missing t.trail n).isEmpty) := by
  have hlookup : t.waiting.lookup n = some ((g.missing t.trail n).length : Int) := by
    rw [h.waiting, lookup_map, if_pos hn]
  rw [free, hlookup, Option.getD_some]
  simp only [h.placed]
  congr 1
  rw [Bool.eq_iff_iff, decide_eq_true_iff, List.isEmpty_iff, ← List.length_eq_zero_iff]
  omega

/-- **A search hands on the orders in `below`** from a record, and changes nothing else in it. -/
def HandsOn (take : σ → List α → Bool × σ) (search : Trial α σ → Bool × Trial α σ) (t : Trial α σ)
    (below : List (List α)) : Prop :=
  ∀ s : σ, search { t with taken := s } = ((feed take s below).1, { t with taken := (feed take s below).2 })

theorem foldl_attempt_false (search : Trial α σ → Bool × Trial α σ) (t : Trial α σ) : ∀ ns : List α,
    ns.foldl (attempt g search) (false, t) = (false, t)
  | [] => rfl
  | _ :: ns => foldl_attempt_false search t ns

theorem HandsOn.attempt {search : Trial α σ → Bool × Trial α σ} {n : α} {below : List (List α)}
    (h : HandsOn take search (t.put g n) below) (hn : n ∉ t.placed) (hfree : t.free n = true) (s : σ) :
    attempt g search (true, { t with taken := s }) n =
      ((feed take s below).1, { t with taken := (feed take s below).2 }) := by
  have hput : ({ t with taken := s } : Trial α σ).put g n = { t.put g n with taken := s } := rfl
  rw [Trial.attempt, if_pos (by exact hfree)]
  dsimp only
  rw [hput, h s, lift_put g t hn]

/-- **The loop over the nodes** hands on what the search hands on below each of those that can be placed. -/
theorem foldl_attempt {search : Trial α σ → Bool × Trial α σ} {below : α → List (List α)} (t : Trial α σ) :
    ∀ (ns : List α) (s : σ),
      (∀ n ∈ ns, t.free n = true → n ∉ t.placed ∧ HandsOn take search (t.put g n) (below n)) →
      ns.foldl (attempt g search) (true, { t with taken := s }) =
        ((feed take s ((ns.filter t.free).flatMap below)).1,
          { t with taken := (feed take s ((ns.filter t.free).flatMap below)).2 })
  | [], _, _ => rfl
  | n :: ns, s, hns => by
    have ih := fun s => foldl_attempt t ns s (fun m hm => hns m (List.mem_cons_of_mem n hm))
    rw [List.foldl_cons]
    by_cases hfree : t.free n = true
    · obtain ⟨hn, hbelow⟩ := hns n List.mem_cons_self hfree
      rw [List.filter_cons_of_pos hfree, List.flatMap_cons, feed_append, hbelow.attempt hn hfree s]
      by_cases hmore : (feed take s (below n)).1 = true
      · rw [hmore, if_pos rfl]
        exact ih _
      · rw [if_neg hmore, eq_false_of_ne_true hmore]
        exact foldl_attempt_false search _ ns
    · have hskip : attempt g search (true, { t with taken := s }) n = (true, { t with taken := s }) :=
        if_neg (by exact hfree)
      rw [List.filter_cons_of_neg hfree, hskip]
      exact ih s

/-- **The search hands on the completions of what is left**, with the trail in front, and leaves the record as it was.
The induction is on the nodes left to place. -/
theorem Counts.handsOn (hg : g.WellFormed) : ∀ (left : Nat) {t : Trial α σ}, t.Counts g →
    (g.agendaAfter t.trail).length = left →
    HandsOn take (walk g take left) t ((g.agendaAfter t.trail).completions.map (fun o => t.trail ++ o))
  | 0, t, _, hleft, s => by
    rw [List.length_eq_zero_iff.1 hleft, Agenda.completions_nil, List.map_singleton, List.append_nil, feed_singleton]
    rfl
  | left + 1, t, h, hleft, s => by
    have hopen : g.agendaAfter t.trail ≠ [] := List.ne_nil_of_length_eq_add_one hleft
    rw [Graph.completions_agendaAfter hopen, ← List.filter_congr (fun n hn => h.free_iff hn)]
    refine foldl_attempt t g.nodes s (fun n hn hfree => ?_)
    have hout : n ∉ t.trail := by
      rw [h.free_iff hn, Bool.and_eq_true, decide_eq_true_iff] at hfree
      exact hfree.1
    have hmem : n ∈ g.nodes.filter (fun m => decide (m ∉ t.trail)) := List.mem_filter.2 ⟨hn, decide_eq_true hout⟩
    have hbelow : (g.agendaAfter (t.put g n).trail).length = left := by
      rw [agendaAfter, List.length_map] at hleft ⊢
      show (g.nodes.filter (fun m => decide (m ∉ t.trail ++ [n]))).length = left
      rw [Graph.filter_concat, Agenda.length_filter_ne (hg.nodup_nodes.filter _), if_pos hmem, hleft]
      rfl
    exact ⟨fun hp => hout ((h.placed n).1 hp), Counts.handsOn hg left (h.put hg hout) hbelow⟩

end Trial

namespace Graph

variable {α σ : Type} [DecidableEq α] {g : Graph α}

/-- **Enumerating the topological orders** for a consumer: whether it wants more in the end, and what it made of
them. -/
def enumerate (g : Graph α) (take : σ → List α → Bool × σ) (s : σ) : Bool × σ :=
  let r := Trial.walk g take g.nodes.length (Trial.start g s)
  (r.1, r.2.taken)

/-- **The enumeration hands on the completions of the agenda.** -/
theorem WellFormed.enumerate_eq (hg : g.WellFormed) (take : σ → List α → Bool × σ) (s : σ) :
    g.enumerate take s = feed take s g.agenda.completions := by
  have hlength : (g.agendaAfter (Trial.start g s).trail).length = g.nodes.length := by
    show (g.agendaAfter []).length = _
    rw [agendaAfter_nil, agenda, List.length_map]
  have htrail : (g.agendaAfter (Trial.start g s).trail).completions.map (fun o => (Trial.start g s).trail ++ o) =
      g.agenda.completions := by
    show (g.agendaAfter []).completions.map (fun o => o) = _
    rw [agendaAfter_nil, List.map_id']
  have hwalk : Trial.HandsOn take (Trial.walk g take g.nodes.length) (Trial.start g s) g.agenda.completions :=
    htrail ▸ Trial.Counts.handsOn hg g.nodes.length (Trial.counts_start g s) hlength
  have hstart : Trial.walk g take g.nodes.length (Trial.start g s) = _ := hwalk s
  rw [enumerate, hstart]

/-- **Keeping the orders that fit, up to a limit**, gives those that the agenda gives for that limit. -/
theorem WellFormed.enumerate_keep (hg : g.WellFormed) (fits : Nat → α → Bool) (limit : Nat) :
    (g.enumerate (keep (Agenda.placedFrom fits 0) limit) []).2 = g.agenda.ordersWhere fits limit 0 := by
  rw [hg.enumerate_eq, snd_feed_keep, Agenda.ordersWhere_eq]
  rfl

end Graph
end LoopNest
