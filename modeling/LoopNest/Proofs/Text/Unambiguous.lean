import Mathlib.Data.List.Basic
/-!
# Proofs.Text.Unambiguous — texts that tell what they were printed from

Something is printed and more follows.  It can be read back (`ReadsBack`) if the characters say what was printed and
what follows, wherever a condition on what follows tells that the printing is over.  Parts one after the other can be
read back (`ReadsBack.seq`), and so can lists: with nothing between their items (`readsBack_numbered`), or with commas
(`ReadsBack.withCommas`).
-/
namespace LoopNest

variable {β γ : Type} {fits : β → Prop} {ends stops : List Char → Prop} {print : β → List Char}

/-- **What is printed can be read back.**  Where it ends, as what follows tells, the characters say what was printed and
what follows. -/
def ReadsBack (fits : β → Prop) (ends : List Char → Prop) (print : β → List Char) : Prop :=
  ∀ x y s t, fits x → fits y → ends s → ends t → print x ++ s = print y ++ t → x = y ∧ s = t

namespace ReadsBack

theorem inj (h : ReadsBack fits ends print) (hends : ends []) {x y : β} (hx : fits x) (hy : fits y) :
    print x = print y ↔ x = y := by
  refine ⟨fun heq => (h x y [] [] hx hy hends hends ?_).1, congrArg print⟩
  rw [heq]

theorem mono (h : ReadsBack fits ends print) (hends : ∀ s, stops s → ends s) : ReadsBack fits stops print :=
  fun x y s t hx hy hs ht => h x y s t hx hy (hends s hs) (hends t ht)

theorem behind (h : ReadsBack fits ends print) (p : List Char) : ReadsBack fits ends (fun x => p ++ print x) := by
  intro x y s t hx hy hs ht heq
  rw [List.append_assoc, List.append_assoc] at heq
  exact h x y s t hx hy hs ht (List.append_cancel_left heq)

theorem before (h : ReadsBack fits ends print) (p : List Char) (hends : ∀ s, stops s → ends (p ++ s)) :
    ReadsBack fits stops (fun x => print x ++ p) := by
  intro x y s t hx hy hs ht heq
  rw [List.append_assoc, List.append_assoc] at heq
  obtain ⟨rfl, hrest⟩ := h x y _ _ hx hy (hends s hs) (hends t ht) heq
  exact ⟨rfl, List.append_cancel_left hrest⟩

/-- What is printed through a view can be read back if the view tells what is seen. -/
theorem view {fits' : γ → Prop} {print' : γ → List Char} (h : ReadsBack fits ends print) (see : γ → β)
    (hfits : ∀ x, fits' x → fits (see x)) (hprint : ∀ x, fits' x → print' x = print (see x))
    (hinj : ∀ x y, fits' x → fits' y → see x = see y → x = y) : ReadsBack fits' ends print' := by
  intro x y s t hx hy hs ht heq
  rw [hprint x hx, hprint y hy] at heq
  obtain ⟨hsee, hrest⟩ := h _ _ s t (hfits x hx) (hfits y hy) hs ht heq
  exact ⟨hinj x y hx hy hsee, hrest⟩

/-- **Two parts can be read back** one after the other, if the first ends where the second begins.  How the second is
printed may depend on the first. -/
theorem seq {fits' : γ → Prop} {second : β → γ → List Char} (h : ReadsBack fits ends print)
    (h' : ∀ x, fits x → ReadsBack fits' stops (second x))
    (hends : ∀ x y s, fits x → fits' y → stops s → ends (second x y ++ s)) :
    ReadsBack (fun z : β × γ => fits z.1 ∧ fits' z.2) stops (fun z => print z.1 ++ second z.1 z.2) := by
  rintro ⟨x, x'⟩ ⟨y, y'⟩ s t hx hy hs ht heq
  rw [List.append_assoc, List.append_assoc] at heq
  obtain ⟨rfl, hrest⟩ := h x y _ _ hx.1 hy.1 (hends x x' s hx.1 hx.2 hs) (hends y y' t hy.1 hy.2 ht) heq
  obtain ⟨rfl, rfl⟩ := h' x hx.1 x' y' s t hx.2 hy.2 hs ht hrest
  exact ⟨rfl, rfl⟩

end ReadsBack

/-! ## Lists -/

/-- Things one after the other, each printed with its number. -/
def numbered (item : Nat → β → List Char) (k : Nat) (xs : List β) : List Char :=
  (xs.zipIdx k).flatMap fun e => item e.2 e.1

theorem numbered_cons (item : Nat → β → List Char) (k : Nat) (x : β) (xs : List β) :
    numbered item k (x :: xs) = item k x ++ numbered item (k + 1) xs := rfl

theorem numbered_const (print : β → List Char) : ∀ (k : Nat) (xs : List β),
    numbered (fun _ => print) k xs = xs.flatMap print
  | _, [] => rfl
  | k, x :: xs => by rw [numbered_cons, numbered_const print (k + 1) xs, List.flatMap_cons]

/-- **A list can be read back** if its items can, an item ends where the next one begins, and what follows the list is
not the beginning of an item. -/
theorem readsBack_numbered {item : Nat → β → List Char} (h : ∀ k, ReadsBack fits ends (item k))
    (hends : ∀ k x s, fits x → ends (item k x ++ s)) (hgoes : ∀ k x s, fits x → ¬ stops (item k x ++ s))
    (hstops : ∀ s, stops s → ends s) (k : Nat) : ReadsBack (fun xs => ∀ x ∈ xs, fits x) stops (numbered item k) := by
  have hnext : ∀ k xs s, (∀ x ∈ xs, fits x) → stops s → ends (numbered item k xs ++ s) := by
    intro k xs s hxs hs
    cases xs with
    | nil => exact hstops s hs
    | cons x xs =>
      rw [numbered_cons, List.append_assoc]
      exact hends k x _ (hxs x List.mem_cons_self)
  have hlast : ∀ k x xs s t, fits x → stops t → numbered item k (x :: xs) ++ s ≠ t := by
    rintro k x xs s _ hx ht rfl
    rw [numbered_cons, List.append_assoc] at ht
    exact hgoes k x _ hx ht
  -- on the list and for every number, since the rest of it is numbered from the next one on
  intro xs
  induction xs generalizing k with
  | nil =>
    intro ys s t _ hys hs _ heq
    cases ys with
    | nil => exact ⟨rfl, heq⟩
    | cons y ys => exact absurd heq.symm (hlast k y ys t s (hys y List.mem_cons_self) hs)
  | cons x xs ih =>
    intro ys s t hxs hys hs ht heq
    cases ys with
    | nil => exact absurd heq (hlast k x xs s t (hxs x List.mem_cons_self) ht)
    | cons y ys =>
      rw [List.forall_mem_cons] at hxs hys
      rw [numbered_cons, numbered_cons, List.append_assoc, List.append_assoc] at heq
      obtain ⟨rfl, hrest⟩ := h k x y _ _ hxs.1 hys.1 (hnext _ xs s hxs.2 hs) (hnext _ ys t hys.2 ht) heq
      obtain ⟨rfl, rfl⟩ := ih (k + 1) ys s t hxs.2 hys.2 hs ht hrest
      exact ⟨rfl, rfl⟩

theorem ReadsBack.flatMap (h : ReadsBack fits ends print) (hends : ∀ x s, fits x → ends (print x ++ s))
    (hgoes : ∀ x s, fits x → ¬ stops (print x ++ s)) (hstops : ∀ s, stops s → ends s) :
    ReadsBack (fun xs => ∀ x ∈ xs, fits x) stops (List.flatMap print) := by
  have hread : ReadsBack _ stops (numbered (fun _ => print) 0) :=
    readsBack_numbered (fun _ => h) (fun _ => hends) (fun _ => hgoes) hstops 0
  rwa [funext (numbered_const print 0)] at hread

/-- Things with a comma and a blank before each. -/
def afterCommas (print : β → List Char) (xs : List β) : List Char := xs.flatMap fun x => [',', ' '] ++ print x

/-- Things with commas and blanks between them, and something before the first if there is one. -/
def withCommas (lead : List Char) (print : β → List Char) : List β → List Char
  | [] => []
  | x :: xs => lead ++ (print x ++ afterCommas print xs)

/-- A list with commas is over where no comma and blank follow. -/
def Over (ends : List Char → Prop) (s : List Char) : Prop := ends s ∧ ¬ [',', ' '] <+: s

/-- **Things after commas can be read back** if a comma ends each of them. -/
theorem ReadsBack.afterCommas (h : ReadsBack fits ends print) (hcomma : ∀ s, ends (',' :: s)) :
    ReadsBack (fun xs => ∀ x ∈ xs, fits x) (Over ends) (LoopNest.afterCommas print) := by
  refine (h.behind [',', ' ']).flatMap (fun x s _ => hcomma _) (fun x s _ hover => hover.2 ?_) fun s hs => hs.1
  rw [List.append_assoc]
  exact List.prefix_append _ _

/-- **Things with commas between them can be read back** if a comma ends each of them, and what follows the list is not
what leads it. -/
theorem ReadsBack.withCommas {lead : List Char} (h : ReadsBack fits ends print) (hcomma : ∀ s, ends (',' :: s))
    (hstops : ∀ s, stops s → Over ends s) (hgoes : ∀ x s, fits x → ¬ stops (lead ++ (print x ++ s))) :
    ReadsBack (fun xs => ∀ x ∈ xs, fits x) stops (LoopNest.withCommas lead print) := by
  have hnext : ∀ xs s, stops s → ends (LoopNest.afterCommas print xs ++ s) := by
    intro xs s hs
    cases xs with
    | nil => exact (hstops s hs).1
    | cons x xs => exact hcomma _
  have hfirst : ∀ x xs s t, fits x → stops t → LoopNest.withCommas lead print (x :: xs) ++ s ≠ t := by
    rintro x xs s _ hx ht rfl
    rw [LoopNest.withCommas, List.append_assoc, List.append_assoc] at ht
    exact hgoes x _ hx ht
  have hrest : ReadsBack (fun xs => ∀ x ∈ xs, fits x) stops (LoopNest.afterCommas print) :=
    (h.afterCommas hcomma).mono hstops
  have hcons := (h.seq (fun _ _ => hrest) fun _ xs s _ _ hs => hnext xs s hs).behind lead
  intro xs ys s t hxs hys hs ht heq
  cases xs with
  | nil =>
    cases ys with
    | nil => exact ⟨rfl, heq⟩
    | cons y ys => exact absurd heq.symm (hfirst y ys t s (hys y List.mem_cons_self) hs)
  | cons x xs =>
    cases ys with
    | nil => exact absurd heq (hfirst x xs s t (hxs x List.mem_cons_self) ht)
    | cons y ys =>
      rw [List.forall_mem_cons] at hxs hys
      obtain ⟨hpair, rfl⟩ := hcons (x, xs) (y, ys) s t hxs hys hs ht heq
      obtain ⟨rfl, rfl⟩ := Prod.mk.inj hpair
      exact ⟨rfl, rfl⟩

end LoopNest
