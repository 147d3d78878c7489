import Jos.Library.Chain

/-!
# Lists that grow at a pointer to their last link

A place holds a pointer to an element or null. Every element has a place of its own, `slot a`,
its link; there may be other places, from which lists start. `Leads slot cell p l` says that
from the place `p` on the pointers lead through the elements of `l`. The last of the places on
the way, `tailOf slot p l`, is not read: it is where the list may be continued, by a store of
the next element (`Leads.grow`) or of a whole list (`Leads.chain`).

`Buckets` are several such lists, one for each key, over one set of places. An element is put
into the list of its key with one store (`Buckets.put`), and what is not in any of the lists
keeps its link (`Buckets.slot_ne`): so a linked list can be distributed while it is followed.
Two of the lists are joined by two more stores (`Buckets.join`).
-/

namespace Jos

variable {α A : Type*}

/-- From the place `p` on the pointers lead through the elements of the list. -/
def Leads (slot : α → A) (cell : A → Option α) : A → List α → Prop
  | _, [] => True
  | p, a :: l => cell p = some a ∧ Leads slot cell (slot a) l

/-- The last place on the way. -/
def tailOf (slot : α → A) : A → List α → A
  | p, [] => p
  | _, a :: l => tailOf slot (slot a) l

variable {slot : α → A} {cell : A → Option α} {p x : A} {l : List α} {a : α}

theorem tailOf_mem : tailOf slot p l ∈ p :: l.map slot := by
  induction l generalizing p with
  | nil => exact List.mem_cons_self
  | cons a l ih => exact List.mem_cons_of_mem p ih

/-- A place that is not on the way is not the last one. -/
theorem ne_tailOf (h : x ∉ p :: l.map slot) : x ≠ tailOf slot p l := by
  rintro rfl
  exact h tailOf_mem

theorem tailOf_concat : tailOf slot p (l ++ [a]) = slot a := by
  induction l generalizing p with
  | nil => rfl
  | cons b l ih => exact ih

namespace Leads

/-- When the list is continued at its last place, it is followed by what is stored there. -/
theorem chain {next : α → Option α} {l' : List α} (hnext : ∀ a, next a = cell (slot a))
    (h : Leads slot cell p l) (h' : Chain next (cell (tailOf slot p l)) l') :
    Chain next (cell p) (l ++ l') := by
  induction l generalizing p with
  | nil => exact h'
  | cons a l ih =>
    obtain ⟨hp, hrest⟩ := h
    rw [hp]
    refine .cons ?_
    rw [hnext]
    exact ih hrest h'

/-- An element that is stored at the last place is the next one. -/
theorem concat (h : Leads slot cell p l) (ha : cell (tailOf slot p l) = some a) :
    Leads slot cell p (l ++ [a]) := by
  induction l generalizing p with
  | nil => exact ⟨ha, trivial⟩
  | cons b l ih => exact ⟨h.1, ih h.2 ha⟩

variable [DecidableEq A]

/-- A store elsewhere. -/
theorem frame (h : Leads slot cell p l) (hx : x ∉ p :: l.map slot) (v : Option α) :
    Leads slot (Function.update cell x v) p l := by
  induction l generalizing p with
  | nil => trivial
  | cons a l ih =>
    obtain ⟨hp, hrest⟩ := h
    rw [List.mem_cons, not_or] at hx
    refine ⟨?_, ih hrest hx.2⟩
    rw [Function.update_of_ne (Ne.symm hx.1)]
    exact hp

/-- A store at the last place. -/
theorem frame_tail (h : Leads slot cell p l) (hnd : (p :: l.map slot).Nodup) (v : Option α) :
    Leads slot (Function.update cell (tailOf slot p l) v) p l := by
  induction l generalizing p with
  | nil => trivial
  | cons a l ih =>
    obtain ⟨hp, hrest⟩ := h
    obtain ⟨hnot, hnd⟩ := List.nodup_cons.mp hnd
    refine ⟨?_, ih hrest hnd⟩
    rw [tailOf, Function.update_of_ne (ne_tailOf hnot)]
    exact hp

/-- Storing an element at the last place appends it. -/
theorem grow (h : Leads slot cell p l) (hnd : (p :: l.map slot).Nodup) (a : α) :
    Leads slot (Function.update cell (tailOf slot p l) (some a)) p (l ++ [a]) :=
  (h.frame_tail hnd (some a)).concat (Function.update_self ..)

end Leads

/-! ### One list for each key -/

variable {ι : Type*} [DecidableEq ι]

/-- The places: a start for each key and a link for each element, all of them different. -/
structure Places (head : ι → A) (slot : α → A) : Prop where
  head_inj : Function.Injective head
  slot_inj : Function.Injective slot
  head_ne_slot : ∀ i a, head i ≠ slot a

/-- The elements that were seen are distributed over the lists, in the order in which they were
seen, and `tp` points to the last links. -/
structure Buckets (head : ι → A) (slot : α → A) (key : α → ι) (seen : List α)
    (cell : A → Option α) (tp : ι → A) : Prop where
  leads : ∀ i, Leads slot cell (head i) (seen.filter fun a => key a = i)
  tail : ∀ i, tp i = tailOf slot (head i) (seen.filter fun a => key a = i)

namespace Buckets

variable {head : ι → A} {key : α → ι} {seen : List α} {tp : ι → A}

/-- Nothing was seen. -/
theorem start (cell : A → Option α) : Buckets head slot key [] cell head :=
  ⟨fun _ => trivial, fun _ => rfl⟩

theorem tail_mem (h : Buckets head slot key seen cell tp) (i : ι) :
    tp i ∈ head i :: (seen.filter fun a => key a = i).map slot := by
  rw [h.tail]
  exact tailOf_mem

/-- The places of one list are different. -/
theorem nodup (hpl : Places head slot) (hnd : seen.Nodup) (i : ι) :
    (head i :: (seen.filter fun a => key a = i).map slot).Nodup := by
  refine List.nodup_cons.mpr ⟨?_, (hnd.filter _).map hpl.slot_inj⟩
  intro hmem
  obtain ⟨a, -, ha⟩ := List.mem_map.mp hmem
  exact hpl.head_ne_slot i a ha.symm

/-- The lists have no place in common. -/
theorem tail_notMem (h : Buckets head slot key seen cell tp) (hpl : Places head slot) {i j : ι}
    (hij : i ≠ j) : tp i ∉ head j :: (seen.filter fun a => key a = j).map slot := by
  intro hj
  obtain hi | hi := List.mem_cons.mp (h.tail_mem i)
  · rw [hi] at hj
    obtain hj | hj := List.mem_cons.mp hj
    · exact hij (hpl.head_inj hj)
    · obtain ⟨b, -, hb⟩ := List.mem_map.mp hj
      exact hpl.head_ne_slot i b hb.symm
  · obtain ⟨a, ha, hai⟩ := List.mem_map.mp hi
    rw [← hai] at hj
    obtain hj | hj := List.mem_cons.mp hj
    · exact hpl.head_ne_slot j a hj.symm
    · -- an element of both lists would have both keys
      rw [List.mem_map_of_injective hpl.slot_inj] at hj
      have hkey := of_decide_eq_true (List.mem_filter.mp ha).2
      have hkey' := of_decide_eq_true (List.mem_filter.mp hj).2
      exact hij (hkey.symm.trans hkey')

/-- An element that was not seen keeps its link. -/
theorem slot_ne (h : Buckets head slot key seen cell tp) (hpl : Places head slot)
    (ha : a ∉ seen) (i : ι) : slot a ≠ tp i := by
  intro hc
  have hmem := h.tail_mem i
  rw [← hc] at hmem
  obtain hhead | hmem := List.mem_cons.mp hmem
  · exact hpl.head_ne_slot i a hhead.symm
  · rw [List.mem_map_of_injective hpl.slot_inj] at hmem
    exact ha (List.mem_filter.mp hmem).1

variable [DecidableEq A]

/-- Storing an element where the list of its key ends. -/
theorem put (h : Buckets head slot key seen cell tp) (hpl : Places head slot)
    (hnd : seen.Nodup) (a : α) :
    Buckets head slot key (seen ++ [a]) (Function.update cell (tp (key a)) (some a))
      (Function.update tp (key a) (slot a)) := by
  have hmine : (seen ++ [a]).filter (fun b => key b = key a) =
      seen.filter (fun b => key b = key a) ++ [a] := by
    rw [List.filter_append, List.filter_singleton, decide_eq_true rfl]
    rfl
  have hother : ∀ i, i ≠ key a →
      (seen ++ [a]).filter (fun b => key b = i) = seen.filter (fun b => key b = i) := by
    intro i hi
    rw [List.filter_append, List.filter_singleton, decide_eq_false (Ne.symm hi)]
    exact List.append_nil _
  -- the list of the key grows, and the others do not visit the cell that is written
  refine ⟨fun i => ?_, fun i => ?_⟩
  · by_cases hi : i = key a
    · subst hi
      rw [hmine, h.tail]
      exact (h.leads _).grow (nodup hpl hnd _) a
    · rw [hother i hi]
      exact (h.leads i).frame (h.tail_notMem hpl (Ne.symm hi)) _
  · by_cases hi : i = key a
    · subst hi
      rw [hmine, tailOf_concat, Function.update_self]
    · rw [hother i hi, Function.update_of_ne hi]
      exact h.tail i

/-- Ending one list and storing its start where another one ends joins the two. -/
theorem join (h : Buckets head slot key seen cell tp) (hpl : Places head slot)
    (hnd : seen.Nodup) {i j : ι} (hij : i ≠ j) {ended joined : A → Option α}
    (hended : ended = Function.update cell (tp j) none)
    (hjoined : joined = Function.update ended (tp i) (ended (head j))) {next : α → Option α}
    (hnext : ∀ a, next a = joined (slot a)) :
    Chain next (joined (head i))
      (seen.filter (fun a => key a = i) ++ seen.filter (fun a => key a = j)) := by
  -- neither of the two lists visits the end of the other
  have hi := h.tail_notMem hpl hij
  have hj := h.tail_notMem hpl (Ne.symm hij)
  have hsecond : Leads slot joined (head j) (seen.filter fun a => key a = j) := by
    rw [hjoined, hended]
    refine Leads.frame ?_ hi _
    rw [h.tail]
    exact (h.leads j).frame_tail (nodup hpl hnd j) none
  have hfirst : Leads slot joined (head i) (seen.filter fun a => key a = i) := by
    rw [hjoined, hended, h.tail i]
    exact ((h.leads i).frame hj none).frame_tail (nodup hpl hnd i) _
  have hend : joined (tp j) = none := by
    rw [hjoined, hended, Function.update_of_ne, Function.update_self]
    intro hc
    exact hj (hc ▸ h.tail_mem i)
  have hstart : joined (tp i) = joined (head j) := by
    rw [hjoined, Function.update_self, Function.update_of_ne]
    rintro hc
    exact hi (hc ▸ List.mem_cons_self)
  -- the chain is walked along the first list, and from its end along the second
  refine hfirst.chain hnext ?_
  rw [← h.tail i, hstart, ← List.append_nil (seen.filter fun a => key a = j)]
  refine hsecond.chain hnext ?_
  rw [← h.tail j, hend]
  exact .nil

end Buckets

end Jos
