import Mathlib.Data.List.Lex
import Mathlib.Data.List.Nodup
import LoopNest.Graph.Order
/-!
# Proofs.Graph.Enumeration — placing the nodes of an agenda in every way

`completions` lists all ways to place an agenda, without a limit and without a test.  The bounded search is a prefix
of those of them that fit (`ordersWhere_eq`), they come in strictly increasing order (`completions_sorted`), and
peeling finds the first (`head?_completions`): it gets stuck only if there is none, since a node that is ready may
always be placed first (`Admits.place`).
-/
namespace LoopNest
namespace Agenda

variable {α : Type}

/-- The nodes of an agenda. -/
def keys (a : Agenda α) : List α := a.map Prod.fst

/-- **`y` waits for `x`.** -/
def Waits (a : Agenda α) (y x : α) : Prop := ∃ e ∈ a, e.1 = y ∧ x ∈ e.2

theorem ready_iff {e : α × List α} : ready e = true ↔ e.2 = [] := by
  unfold ready; exact List.isEmpty_iff

/-- **An agenda is closed**: it lists no node twice, and what its nodes wait for is on it. -/
structure Closed (a : Agenda α) : Prop where
  nodup_keys : a.keys.Nodup
  waits_mem : ∀ {y x}, a.Waits y x → x ∈ a.keys

theorem Closed.not_waits {a : Agenda α} (ha : a.Closed) {e : α × List α} (he : e ∈ a) (hr : e.2 = []) (x : α) :
    ¬ a.Waits e.1 x := by
  rintro ⟨f, hf, hfe, hx⟩
  have : f = e := List.inj_on_of_nodup_map ha.nodup_keys hf he hfe
  rw [this, hr] at hx
  cases hx

variable [DecidableEq α]

/-! ## One placement -/

theorem keys_place (a : Agenda α) (n : α) : (a.place n).keys = a.keys.filter (fun m => decide (m ≠ n)) := by
  unfold keys place
  rw [List.map_map, List.filter_map]
  rfl

theorem waits_place {a : Agenda α} {n y x : α} : (a.place n).Waits y x ↔ a.Waits y x ∧ y ≠ n ∧ x ≠ n := by
  unfold Waits place
  constructor
  · rintro ⟨e, he, rfl, hx⟩
    obtain ⟨f, hf, rfl⟩ := List.mem_map.1 he
    obtain ⟨hfa, hfn⟩ := List.mem_filter.1 hf
    obtain ⟨hxf, hxn⟩ := List.mem_filter.1 hx
    exact ⟨⟨f, hfa, rfl, hxf⟩, by simpa using hfn, by simpa using hxn⟩
  · rintro ⟨⟨f, hfa, rfl, hxf⟩, hyn, hxn⟩
    refine ⟨(f.1, f.2.filter (fun p => decide (p ≠ n))), List.mem_map.2 ⟨f, ?_, rfl⟩, rfl, ?_⟩
    · exact List.mem_filter.2 ⟨hfa, by simpa using hyn⟩
    · exact List.mem_filter.2 ⟨hxf, by simpa using hxn⟩

/-- A ready node stays ready while others are placed. -/
theorem ready_mem_place {a : Agenda α} {e : α × List α} {n : α} (he : e ∈ a) (hr : e.2 = []) (hn : e.1 ≠ n) :
    e ∈ a.place n := by
  unfold place
  refine List.mem_map.2 ⟨e, List.mem_filter.2 ⟨he, by simpa using hn⟩, ?_⟩
  rw [hr, List.filter_nil, ← hr]

theorem place_comm (a : Agenda α) (n m : α) : (a.place n).place m = (a.place m).place n := by
  unfold place
  simp only [List.filter_map, List.map_map, List.filter_filter, Function.comp_def]
  congr 1
  · funext e
    simp only [Prod.mk.injEq, true_and]
    exact List.filter_congr (fun p _ => Bool.and_comm _ _)
  · exact List.filter_congr (fun e _ => Bool.and_comm _ _)

/-! ## All placements -/

/-- **All ways to place everything**, in lexicographic order. -/
def completions (a : Agenda α) : List (List α) :=
  if a.isEmpty then [[]]
  else (a.filter ready).attach.flatMap (fun e => (completions (a.place e.1.1)).map (fun o => e.1.1 :: o))
termination_by a.length
decreasing_by exact length_place_lt (List.mem_filter.1 e.2).1

@[simp] theorem completions_nil : completions ([] : Agenda α) = [[]] := by
  rw [completions]; rfl

theorem completions_of_ne_nil {a : Agenda α} (h : a ≠ []) :
    a.completions = (a.filter ready).flatMap (fun e => (a.place e.1).completions.map (fun o => e.1 :: o)) := by
  have hf : a.isEmpty = false := by simpa using h
  rw [completions, hf]
  conv => rhs; rw [← List.attach_map_subtype_val (a.filter ready), List.flatMap_map]
  rfl

/-- **A list places an agenda**: each of its nodes is ready when its turn comes, and none is left in the end. -/
inductive Admits : Agenda α → List α → Prop where
  | nil : Admits [] []
  | cons {a : Agenda α} {e : α × List α} {o : List α} : e ∈ a → e.2 = [] → Admits (a.place e.1) o → Admits a (e.1 :: o)

/-- **The completions are the lists that place the agenda.** -/
theorem mem_completions {o : List α} : ∀ {a : Agenda α}, o ∈ a.completions ↔ Admits a o := by
  induction o with
  | nil =>
    intro a
    constructor
    · intro h
      by_cases ha : a = []
      · rw [ha]; exact .nil
      · rw [completions_of_ne_nil ha] at h
        obtain ⟨e, -, he⟩ := List.mem_flatMap.1 h
        obtain ⟨o, -, ho⟩ := List.mem_map.1 he
        cases ho
    · intro h
      cases h
      simp
  | cons n o ih =>
    intro a
    constructor
    · intro h
      by_cases ha : a = []
      · rw [ha, completions_nil, List.mem_singleton] at h; cases h
      · rw [completions_of_ne_nil ha] at h
        obtain ⟨e, he, ho⟩ := List.mem_flatMap.1 h
        obtain ⟨he, hr⟩ := List.mem_filter.1 he
        obtain ⟨o', ho', heq⟩ := List.mem_map.1 ho
        obtain ⟨rfl, rfl⟩ := List.cons.inj heq
        exact .cons he (ready_iff.1 hr) (ih.1 ho')
    · intro h
      cases h with
      | @cons _ e _ he hr h =>
        rw [completions_of_ne_nil (List.ne_nil_of_mem he)]
        exact List.mem_flatMap.2 ⟨e, List.mem_filter.2 ⟨he, ready_iff.2 hr⟩, List.mem_map.2 ⟨o, ih.2 h, rfl⟩⟩

/-- **A ready node may be placed first**: what places the agenda, less that node, places the rest. -/
theorem Admits.place {a : Agenda α} {o : List α} {e : α × List α} (h : Admits a o) (he : e ∈ a) (hr : e.2 = []) :
    Admits (a.place e.1) (o.erase e.1) := by
  induction h with
  | nil => cases he
  | @cons a f o hf hfr h ih =>
    by_cases hef : f.1 = e.1
    · rw [← hef, List.erase_cons_head]; exact h
    · rw [List.erase_cons_tail (by simpa using hef)]
      refine .cons (ready_mem_place hf hfr hef) hfr ?_
      rw [place_comm]
      exact ih (ready_mem_place he hr (Ne.symm hef))

/-- **Peeling**: places the first ready node while there is one.  Gives the placed nodes and the stuck ones. -/
def peel (a : Agenda α) : List α × List α :=
  match _h : a.find? ready with
  | none => ([], a.map Prod.fst)
  | some e =>
    let r := peel (a.place e.1)
    (e.1 :: r.1, r.2)
termination_by a.length
decreasing_by exact length_place_lt (List.mem_of_find?_eq_some _h)

theorem peel_of_none {a : Agenda α} (h : a.find? ready = none) : a.peel = ([], a.keys) := by
  rw [peel]
  split
  · rfl
  · rename_i e he
    rw [h] at he
    cases he

theorem peel_of_some {a : Agenda α} {e : α × List α} (h : a.find? ready = some e) :
    a.peel = (e.1 :: (a.place e.1).peel.1, (a.place e.1).peel.2) := by
  rw [peel]
  split
  · rename_i hnone
    rw [h] at hnone
    cases hnone
  · rename_i f hf
    rw [h] at hf
    cases hf
    rfl

/-- **Peeling finds the first completion**, and gets stuck exactly if there is none. -/
theorem head?_completions (a : Agenda α) :
    a.completions.head? = if a.peel.2 = [] then some a.peel.1 else none := by
  induction hl : a.length using Nat.strongRecOn generalizing a with
  | ind k ih =>
    subst hl
    cases hf : a.find? ready with
    | none =>
      rw [peel_of_none hf]
      by_cases ha : a = []
      · subst ha; simp [keys]
      · have hnone : a.filter ready = [] := List.filter_eq_nil_iff.2 (fun e he => List.find?_eq_none.1 hf e he)
        rw [completions_of_ne_nil ha, hnone]
        simp [keys, ha]
    | some e =>
      rw [peel_of_some hf]
      have he := List.mem_of_find?_eq_some hf
      have hr := ready_iff.1 (List.find?_some hf)
      have hstep := ih _ (length_place_lt he) (a.place e.1) rfl
      dsimp only
      cases hc : (a.place e.1).completions with
      | nil =>
        -- no order starts with `e`, so none starts with anything else
        have hnil : a.completions = [] := by
          rw [List.eq_nil_iff_forall_not_mem]
          intro o ho
          have := mem_completions.2 ((mem_completions.1 ho).place he hr)
          rw [hc] at this
          cases this
        rw [hc, List.head?_nil] at hstep
        rw [hnil, List.head?_nil]
        split at hstep
        · cases hstep
        · rename_i hs; rw [if_neg hs]
      | cons o os =>
        rw [hc, List.head?_cons] at hstep
        split at hstep
        · rename_i hs
          rw [if_pos hs, completions_of_ne_nil (List.ne_nil_of_mem he)]
          have hfilter : ∃ rest, a.filter ready = e :: rest := by
            have hh : (a.filter ready).head? = some e := by rw [List.head?_filter]; exact hf
            exact List.head?_eq_some_iff.1 hh
          obtain ⟨rest, hrest⟩ := hfilter
          rw [hrest, List.flatMap_cons, hc, List.map_cons, List.cons_append, List.head?_cons, Option.some.inj hstep]
        · cases hstep

/-! ## The bounded search -/

/-- Whether `fits` accepts every node of a list at its index, the first one being at `i`. -/
def placedFrom (fits : Nat → α → Bool) : Nat → List α → Bool
  | _, [] => true
  | i, n :: o => fits i n && placedFrom fits (i + 1) o

/-- Collecting up to a limit is collecting everything and cutting at the limit. -/
theorem foldl_collect {β γ : Type} (limit : Nat) (G : β → List γ) : ∀ (l : List β) (X : List γ),
    l.foldl (fun found e => if limit ≤ found.length then found else found ++ (G e).take (limit - found.length))
      (X.take limit) = (X ++ l.flatMap G).take limit
  | [], X => by simp
  | e :: l, X => by
    rw [List.foldl_cons]
    have hstep : (if limit ≤ (X.take limit).length then X.take limit
        else X.take limit ++ (G e).take (limit - (X.take limit).length)) = (X ++ G e).take limit := by
      rw [List.length_take, List.take_append]
      split
      · rename_i h
        rw [show limit - X.length = 0 by omega, List.take_zero, List.append_nil]
      · rename_i h
        rw [Nat.min_eq_right (by omega)]
    rw [hstep, foldl_collect limit G l (X ++ G e), List.flatMap_cons, List.append_assoc]

/-- The completions that fit, by their first node. -/
theorem filter_completions (fits : Nat → α → Bool) (i : Nat) {a : Agenda α} (ha : a ≠ []) :
    a.completions.filter (placedFrom fits i) = (a.filter (fun e => ready e && fits i e.1)).flatMap (fun e =>
      ((a.place e.1).completions.filter (placedFrom fits (i + 1))).map (fun o => e.1 :: o)) := by
  have hone : ∀ e : α × List α, ((a.place e.1).completions.map (fun o => e.1 :: o)).filter (placedFrom fits i) =
      if fits i e.1 then ((a.place e.1).completions.filter (placedFrom fits (i + 1))).map (fun o => e.1 :: o)
      else [] := by
    intro e
    rw [List.filter_map]
    split
    · rename_i h
      congr 1
      exact List.filter_congr (fun o _ => by simp [placedFrom, h])
    · rename_i h
      rw [List.filter_eq_nil_iff.2 (fun o _ => by simp [placedFrom, h]), List.map_nil]
  rw [completions_of_ne_nil ha, List.filter_flatMap]
  simp only [hone]
  generalize hG : (fun e : α × List α =>
    ((a.place e.1).completions.filter (placedFrom fits (i + 1))).map (fun o => e.1 :: o)) = G
  have hG' : ∀ e : α × List α, ((a.place e.1).completions.filter (placedFrom fits (i + 1))).map (fun o => e.1 :: o) =
      G e := fun e => congrFun hG e
  simp only [hG']
  clear hone hG hG' ha
  induction a with
  | nil => rfl
  | cons e a ih =>
    cases hr : ready e <;> cases hq : fits i e.1 <;> simp [hr, hq, ih]

/-- **The bounded search finds the first completions that fit.** -/
theorem ordersWhere_eq (fits : Nat → α → Bool) (limit i : Nat) (a : Agenda α) :
    a.ordersWhere fits limit i = (a.completions.filter (placedFrom fits i)).take limit := by
  induction hl : a.length using Nat.strongRecOn generalizing a limit i with
  | ind k ih =>
    subst hl
    rw [ordersWhere]
    by_cases ha : a = []
    · subst ha
      have hnil : ([[]] : List (List α)).filter (placedFrom fits i) = [[]] := rfl
      rw [completions_nil, hnil]
      cases limit <;> simp
    · have hf : a.isEmpty = false := by simpa using ha
      rw [hf, if_neg Bool.false_ne_true, filter_completions fits i ha]
      generalize hbelow : (fun e : α × List α =>
        ((a.place e.1).completions.filter (placedFrom fits (i + 1))).map (fun o => e.1 :: o)) = below
      have hsearch : ∀ (e : { x // x ∈ a.filter (fun e => ready e && fits i e.1) }) (k : Nat),
          (ordersWhere fits k (i + 1) (a.place e.1.1)).map (fun o => e.1.1 :: o) = (below e.1).take k := by
        intro e k
        rw [ih _ (length_place_lt (List.mem_filter.1 e.2).1) k (i + 1) (a.place e.1.1) rfl, List.map_take, ← hbelow]
      simp only [hsearch]
      have hfold := foldl_collect limit below (a.filter (fun e => ready e && fits i e.1)) []
      rw [List.take_nil, List.nil_append] at hfold
      rw [← hfold]
      conv => rhs; rw [← List.attach_map_subtype_val (a.filter (fun e => ready e && fits i e.1)), List.foldl_map]

/-! ## The order of the completions -/

/-- The positions in `ks` of the members of a list. -/
def positions (ks o : List α) : List Nat := o.map (fun n => ks.idxOf n)

theorem positions_inj {ks : List α} : ∀ {o o' : List α}, (∀ x ∈ o, x ∈ ks) → positions ks o = positions ks o' → o = o'
  | [], [], _, _ => rfl
  | [], _ :: _, _, h => by cases h
  | _ :: _, [], _, h => by cases h
  | x :: o, y :: o', hks, h => by
    obtain ⟨hhead, htail⟩ := List.cons.inj h
    rw [(List.idxOf_inj (hks x List.mem_cons_self)).1 hhead,
      positions_inj (fun z hz => hks z (List.mem_cons_of_mem x hz)) htail]

/-- **The completions come in strictly increasing order**, by the positions of their nodes in any list in which the
nodes of the agenda come in the same order. -/
theorem completions_sorted (ks : List α) (a : Agenda α) (hks : a.keys.Pairwise (fun x y => ks.idxOf x < ks.idxOf y)) :
    a.completions.Pairwise (fun o o' => positions ks o < positions ks o') := by
  induction hl : a.length using Nat.strongRecOn generalizing a with
  | ind k ih =>
    subst hl
    by_cases ha : a = []
    · rw [ha, completions_nil]; exact List.pairwise_singleton _ _
    · rw [completions_of_ne_nil ha, List.pairwise_flatMap]
      refine ⟨fun e he => ?_, ?_⟩
      · have hlt := length_place_lt (List.mem_filter.1 he).1
        have hk : (a.place e.1).keys.Pairwise (fun x y => ks.idxOf x < ks.idxOf y) := by
          rw [keys_place]; exact hks.filter _
        rw [List.pairwise_map]
        refine (ih _ hlt _ hk rfl).imp ?_
        intro o o' h
        exact List.cons_lt_cons_iff.2 (Or.inr ⟨rfl, h⟩)
      · have hf : (a.filter ready).Pairwise (fun e f => ks.idxOf e.1 < ks.idxOf f.1) :=
          (List.pairwise_map.1 hks).filter _
        refine hf.imp ?_
        intro e f hef o ho o' ho'
        obtain ⟨t, -, rfl⟩ := List.mem_map.1 ho
        obtain ⟨t', -, rfl⟩ := List.mem_map.1 ho'
        exact List.cons_lt_cons_iff.2 (Or.inl hef)

/-- In a list without repetition, what comes earlier has the smaller position. -/
theorem pairwise_idxOf {ks : List α} (h : ks.Nodup) : ks.Pairwise (fun x y => ks.idxOf x < ks.idxOf y) := by
  rw [List.pairwise_iff_getElem]
  intro i j hi hj hij
  rw [h.idxOf_getElem, h.idxOf_getElem]
  exact hij

/-! ## The completions of a closed agenda -/

theorem Closed.place {a : Agenda α} (ha : a.Closed) (n : α) : (a.place n).Closed where
  nodup_keys := by rw [keys_place]; exact ha.nodup_keys.filter _
  waits_mem h := by
    obtain ⟨hw, -, hx⟩ := waits_place.1 h
    rw [keys_place]
    exact List.mem_filter.2 ⟨ha.waits_mem hw, by simpa using hx⟩

theorem filter_ne_eq_erase {l : List α} (hl : l.Nodup) (n : α) : l.filter (fun m => decide (m ≠ n)) = l.erase n := by
  rw [hl.erase_eq_filter]
  refine List.filter_congr (fun m _ => ?_)
  by_cases h : m = n <;> simp [h]

theorem length_filter_ne {l : List α} (hl : l.Nodup) (n : α) :
    (l.filter (fun m => decide (m ≠ n))).length = if n ∈ l then l.length - 1 else l.length := by
  rw [filter_ne_eq_erase hl, List.length_erase]

theorem Closed.perm_keys {a : Agenda α} (ha : a.Closed) {n : α} (hn : n ∈ a.keys) :
    (n :: (a.place n).keys).Perm a.keys := by
  rw [keys_place, filter_ne_eq_erase ha.nodup_keys]
  exact (List.perm_cons_erase hn).symm

/-- **What is peeled and what is stuck are the nodes of the agenda.** -/
theorem Closed.peel_perm {a : Agenda α} (ha : a.Closed) : (a.peel.1 ++ a.peel.2).Perm a.keys := by
  induction hl : a.length using Nat.strongRecOn generalizing a with
  | ind k ih =>
    subst hl
    cases hf : a.find? ready with
    | none => rw [peel_of_none hf]; exact List.Perm.refl _
    | some e =>
      have he := List.mem_of_find?_eq_some hf
      rw [peel_of_some hf]
      exact ((ih _ (length_place_lt he) (ha.place e.1) rfl).cons e.1).trans
        (ha.perm_keys (List.mem_map.2 ⟨e, he, rfl⟩))

/-- **What places a closed agenda**: its nodes in an order in which none waits for itself or for a later one. -/
theorem Closed.admits_iff {o : List α} : ∀ {a : Agenda α}, a.Closed →
    (Admits a o ↔ o.Perm a.keys ∧ o.Pairwise (fun x y => ¬ a.Waits x y) ∧ ∀ x, ¬ a.Waits x x) := by
  induction o with
  | nil =>
    intro a ha
    constructor
    · intro h
      cases h
      refine ⟨List.Perm.refl _, List.Pairwise.nil, ?_⟩
      rintro x ⟨e, he, -⟩
      cases he
    · rintro ⟨hp, -, -⟩
      have hk : a = [] := List.map_eq_nil_iff.1 (List.nil_perm.1 hp)
      rw [hk]; exact .nil
  | cons n o ih =>
    intro a ha
    constructor
    · intro h
      cases h with
      | @cons _ e _ he hr h =>
        obtain ⟨hp, hpw, hirr⟩ := (ih (ha.place e.1)).1 h
        have hn : e.1 ∈ a.keys := List.mem_map.2 ⟨e, he, rfl⟩
        have hout : ∀ x ∈ o, x ≠ e.1 := by
          intro x hx
          have := hp.mem_iff.1 hx
          rw [keys_place] at this
          simpa using (List.mem_filter.1 this).2
        refine ⟨(hp.cons e.1).trans (ha.perm_keys hn), List.pairwise_cons.2 ⟨fun x _ => ha.not_waits he hr x, ?_⟩, ?_⟩
        · refine hpw.imp_of_mem ?_
          intro x y hx hy hxy hw
          exact hxy (waits_place.2 ⟨hw, hout x hx, hout y hy⟩)
        · intro x hw
          by_cases hxe : x = e.1
          · rw [hxe] at hw; exact ha.not_waits he hr _ hw
          · exact hirr x (waits_place.2 ⟨hw, hxe, hxe⟩)
    · rintro ⟨hp, hpw, hirr⟩
      obtain ⟨hno, hrest⟩ := List.pairwise_cons.1 hpw
      have hn : n ∈ a.keys := hp.mem_iff.1 List.mem_cons_self
      obtain ⟨e, he, rfl⟩ := List.mem_map.1 hn
      have hr : e.2 = [] := by
        rw [List.eq_nil_iff_forall_not_mem]
        intro x hx
        have hw : a.Waits e.1 x := ⟨e, he, rfl, hx⟩
        rcases List.mem_cons.1 (hp.mem_iff.2 (ha.waits_mem hw)) with rfl | hxo
        · exact hirr _ hw
        · exact hno x hxo hw
      refine .cons he hr ((ih (ha.place e.1)).2 ⟨?_, ?_, ?_⟩)
      · exact (hp.trans (ha.perm_keys hn).symm).cons_inv
      · refine hrest.imp ?_
        intro x y hxy hw
        exact hxy (waits_place.1 hw).1
      · exact fun x hw => hirr x (waits_place.1 hw).1

end Agenda
end LoopNest
