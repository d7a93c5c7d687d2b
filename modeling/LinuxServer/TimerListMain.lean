import LinuxServer.Printf
import LinuxServer.TimerListOrder
import LinuxServer.TimerListRuns

/-!
# The end of a timer list, and the program of `11-2_LIST_TIMER.cpp`

The destructor frees the timers that are linked when the list goes out of scope.  The program adds
one timer for each number that it reads, prints the list and lets it go.
-/

namespace LinuxServer.TimerList
open Linkage CString

namespace SortTimerLst

/-- The loop of `~sort_timer_lst`. -/
def destroyLoop : ℕ → SortTimerLst → Option ℕ → Option SortTimerLst
  | 0, _, _ => none
  | _ + 1, l, none => some l
  | n + 1, l, some a => do
    let t ← l.heap a
    let l ← { l with head := t.next }.free a
    destroyLoop n l l.head

/-- `~sort_timer_lst()`. -/
def destroy (l : SortTimerLst) : Option SortTimerLst := destroyLoop (l.cells + 1) l l.head

end SortTimerLst

open SortTimerLst

variable {s s' : Usage} {l l' : SortTimerLst} {a : ℕ} {xs : List ℕ} {n : ℕ} {e : Operation}
variable {back : Option ℕ → Option ℕ → Prop}

theorem destroyLoop_eq (back : Option ℕ → Option ℕ → Prop) (n : ℕ) (l : SortTimerLst) :
    destroyLoop n l l.head =
      ((links back).releaseChain n l.heap l.head).map fun h => { l with head := none, heap := h } := by
  induction n generalizing l with
  | zero => rfl
  | succ n ih =>
    cases hh : l.head with
    | none =>
      have hl : l = { l with head := none } := by rw [← hh]
      simpa [destroyLoop, releaseChain] using hl
    | some a =>
      cases ht : l.heap a with
      | none => simp [destroyLoop, releaseChain, ht]
      | some t =>
        have hrest := ih { l with head := t.next, heap := Function.update l.heap a none }
        simpa [destroyLoop, releaseChain, release, free, ht] using hrest

/-- Everything that is linked is freed, and nothing else. -/
theorem SortTimerLst.Holds.destroy (h : Holds back l xs) : ∃ l', l.destroy = some l' ∧ l'.head = none ∧
    ∀ x, l'.heap x = if x ∈ xs then none else l.heap x := by
  refine ⟨{ l with head := none, heap := fun x => if x ∈ xs then none else l.heap x }, ?_, rfl, fun _ => rfl⟩
  rw [SortTimerLst.destroy, destroyLoop_eq back,
    h.seg.releaseChain_eq h.nodup (Nat.lt_succ_of_le h.length_le), Option.map_some]

/-! ## After any use -/

/-- The list is linked through `xs`, and every timer that is alive is linked. -/
structure Owned (l : SortTimerLst) (xs : List ℕ) : Prop where
  holds : Holds weakBack l xs
  only : ∀ a ∉ xs, l.heap a = none

theorem SameData.eq_none {h h' : ℕ → Option UtilTimer} (hs : SameData h h') (ha : h a = none) :
    h' a = none := by
  have := hs a
  rw [ha] at this
  simpa using this

theorem Owned.add (h : Owned l xs) (ha : l.heap a = none) (x : ℤ)
    (hadd : (l.alloc a x 0).addTimer (some a) = some l') : ∃ ys, Owned l' ys := by
  obtain ⟨l'', h1, -, h3, h4⟩ := h.holds.addNew weakBack_self ha x 0
  obtain rfl := Option.some.inj (hadd.symm.trans h1)
  refine ⟨_, h4, fun b hb => h3.eq_none ?_⟩
  rw [mem_insertBy, not_or] at hb
  simpa [alloc, hb.1] using h.only b hb.2

theorem Owned.del (h : Owned l xs) (ha : a ∈ xs) (hdel : l.delTimer (some a) = some l') :
    ∃ ys, Owned l' ys := by
  obtain ⟨-, h2, h3⟩ := delTimer_spec h.holds ha hdel
  refine ⟨_, h3, fun b hb => h2.eq_none ?_⟩
  by_cases hba : b = a
  · simp [hba]
  · rw [Function.update_of_ne hba]
    exact h.only b fun hb' => hb ((List.mem_erase_of_ne hba).mpr hb')

theorem Owned.adjust (h : Owned l xs) (ha : a ∈ xs) (hadj : l.adjustTimer (some a) = some l') :
    ∃ ys, Owned l' ys := by
  obtain ⟨l'', ys, h1, -, h3, h4, hp⟩ := adjustTimer_spec weakBack_self h.holds ha
  obtain rfl := Option.some.inj (hadj.symm.trans h1)
  exact ⟨ys, h4, fun b hb => h3.eq_none (h.only b fun hb' => hb (hp.mem_iff.mpr hb'))⟩

theorem Owned.tick {ω : Type} {cb : ℕ → ℤ → ω → ω} {cur : ℤ} {w w' : ω} (h : Owned l xs)
    (htick : l.tick cb cur w = some (l', w')) : ∃ ys, Owned l' ys := by
  obtain ⟨l'', h1, h2, -, -, h5⟩ := tick_spec cb cur (w := w) _ _ (weakBack_self none) h.holds
    fun _ => h.holds.map_data
  obtain ⟨rfl, -⟩ := Prod.mk.inj (Option.some.inj (htick.symm.trans h1))
  refine ⟨_, h2, fun b hb => ?_⟩
  have hdata := h5 b
  by_cases hfired : b ∈ xs.takeWhile (expireAt l.heap · ≤ cur)
  · rw [if_pos hfired] at hdata
    simpa using hdata
  · have hb' : b ∉ xs := fun hx => by
      rw [← List.takeWhile_append_dropWhile (p := fun a => decide (expireAt l.heap a ≤ cur)) (l := xs)] at hx
      exact (List.mem_append.mp hx).elim hfired hb
    rw [if_neg hfired, h.only b hb'] at hdata
    simpa using hdata

theorem owned_step (h : Owned s.lst xs) (he : Legal s e) (hstep : step s e = some s') :
    ∃ ys, Owned s'.lst ys := by
  cases e with
  | add a x =>
    obtain ⟨l', h1, hs⟩ := Option.bind_eq_some_iff.mp hstep
    obtain rfl := Option.some.inj hs
    exact h.add he x h1
  | raise a x =>
    have ha : a ∈ xs := h.holds.timers_eq ▸ he.1
    obtain ⟨t, ht⟩ := h.holds.seg.mem ha
    obtain rfl : _ = s' := by simpa [step, SortTimerLst.write, ht] using hstep
    refine ⟨xs, h.holds.setExpire ht x, fun b hb => ?_⟩
    have hba : b ≠ a := by
      rintro rfl
      exact hb ha
    simpa [hba] using h.only b hb
  | adjust a =>
    obtain ⟨l', h1, hs⟩ := Option.bind_eq_some_iff.mp hstep
    obtain rfl := Option.some.inj hs
    exact h.adjust (h.holds.timers_eq ▸ he) h1
  | del a =>
    obtain ⟨l', h1, hs⟩ := Option.bind_eq_some_iff.mp hstep
    obtain rfl := Option.some.inj hs
    exact h.del (h.holds.timers_eq ▸ he) h1
  | tick cur =>
    obtain ⟨r, h1, hs⟩ := Option.bind_eq_some_iff.mp hstep
    obtain rfl := Option.some.inj hs
    exact h.tick h1

/-- However the list was used, the destructor runs through and no timer is left. -/
theorem destroy_frees_all (h : Reach Init Legal step s) :
    ∃ l, s.lst.destroy = some l ∧ l.head = none ∧ ∀ a, l.heap a = none := by
  have hinv : ∃ xs, Owned s.lst xs := by
    refine h.invariant (I := fun s => ∃ xs, Owned s.lst xs) (fun s hs => ⟨[], ?_⟩) fun s e s' h he hstep => ?_
    · rw [hs.1]
      exact ⟨holds_empty, fun _ _ => rfl⟩
    · obtain ⟨xs, hxs⟩ := h
      exact owned_step hxs he hstep
  obtain ⟨xs, hxs⟩ := hinv
  obtain ⟨l, h1, h2, h3⟩ := hxs.holds.destroy
  refine ⟨l, h1, h2, fun a => ?_⟩
  rw [h3]
  split
  · rfl
  · next ha => exact hxs.only a ha

/-- Three timers, of which one is deleted and one put back behind the other. -/
theorem destroy_frees_all_two : ∃ s : Usage, s.lst.timers = [2, 1] ∧
    ∃ l, s.lst.destroy = some l ∧ l.head = none ∧ ∀ a, l.heap a = none := by
  obtain ⟨s, hs, htimers⟩ : ∃ s : Usage, play Legal step start
      [.add 0 1, .add 1 5, .add 2 7, .del 0, .raise 1 8, .adjust 1] = some s ∧ s.lst.timers = [2, 1] :=
    ⟨_, rfl, by decide⟩
  exact ⟨s, htimers, destroy_frees_all (reach_of_play ⟨rfl, rfl, rfl⟩ hs)⟩

/-! ## `11-2_LIST_TIMER.cpp` -/

/-- The lines that the program prints, with the number in each.  An expiry time of 64 bits goes to a
conversion `%d` everywhere but in the last loop. -/
inductive Printed
  | head (x : ℤ)
  | tail (x : ℤ)
  | addingHead (x : ℤ)
  | addingTail (x : ℤ)
  | headValue (x : ℤ)
  | tailValue (x : ℤ)
  | traversing
  | expire (x : ℤ)
  deriving DecidableEq, Repr

/-- The loop that reads the numbers.  Each comes with the address that `new` returns. -/
def addLoop : List (ℕ × ℤ) → SortTimerLst → List Printed → Option (SortTimerLst × List Printed)
  | [], stl, out => some (stl, out)
  | t :: ts, stl, out => do
    let stl ← (stl.alloc t.1 t.2 0).addTimer (some t.1)
    let head ← stl.deref stl.head
    let tail ← stl.deref stl.tail
    addLoop ts stl (out ++ [.addingHead (lowInt head.expire), .addingTail (lowInt tail.expire)])

/-- The loop that walks the list. -/
def traverse : ℕ → SortTimerLst → Option ℕ → List Printed → Option (List Printed)
  | 0, _, _, _ => none
  | _ + 1, _, none, out => some out
  | n + 1, stl, some a, out => do
    let tmp ← stl.heap a
    traverse n stl tmp.next (out ++ [.expire tmp.expire])

/-- `main`, down to the end of the list's life.  Pointers to no timer are printed as 0. -/
def main (ts : List (ℕ × ℤ)) : Option (SortTimerLst × List Printed) := do
  let r ← addLoop ts .empty [.head 0, .tail 0]
  let head ← r.1.deref r.1.head
  let tail ← r.1.deref r.1.tail
  let out ← traverse (r.1.cells + 1) r.1 r.1.head
    (r.2 ++ [.headValue (lowInt head.expire), .tailValue (lowInt tail.expire), .traversing])
  let stl ← r.1.destroy
  some (stl, out)

/-! What the program is to print for the numbers. -/

def least (xs : List ℤ) : ℤ := xs.min?.getD 0

def greatest (xs : List ℤ) : ℤ := xs.max?.getD 0

/-- What is printed for each number, those before it being `seen`. -/
def adding (seen : List ℤ) : List ℤ → List Printed
  | [] => []
  | x :: xs => .addingHead (lowInt (least (seen ++ [x]))) ::
      .addingTail (lowInt (greatest (seen ++ [x]))) :: adding (seen ++ [x]) xs

def report (xs : List ℤ) : List Printed :=
  [.head 0, .tail 0] ++ adding [] xs ++
    [.headValue (lowInt (least xs)), .tailValue (lowInt (greatest xs)), .traversing] ++
    (xs.mergeSort fun x y => decide (x ≤ y)).map .expire

/-! The order of the list. -/

/-- The timers in order of expiry, and of creation where they expire together. -/
def sorted (ts : List (ℕ × ℤ)) : List (ℕ × ℤ) := ts.mergeSort fun x y => decide (x.2 ≤ y.2)

variable {ts seen : List (ℕ × ℤ)} {t p : ℕ × ℤ} {stl : SortTimerLst}

theorem sorted_snoc (ts : List (ℕ × ℤ)) (t : ℕ × ℤ) :
    sorted (ts ++ [t]) = insertBehind Prod.snd t (sorted ts) := by
  unfold sorted
  rw [← foldl_insertBehind_eq_mergeSort, ← foldl_insertBehind_eq_mergeSort, List.foldl_append]
  rfl

theorem sorted_pairwise (ts : List (ℕ × ℤ)) : (sorted ts).Pairwise fun x y => x.2 ≤ y.2 := by
  have h : (sorted ts).Pairwise fun x y => decide (x.2 ≤ y.2) = true :=
    List.pairwise_mergeSort (fun a b c h1 h2 => by simp at *; omega) (fun a b => by simp; omega) ts
  exact h.imp fun h => by simpa using h

theorem sorted_ne_nil (hne : ts ≠ []) : sorted ts ≠ [] := by
  intro hnil
  apply hne
  have hlen := congrArg List.length hnil
  rw [sorted, List.length_mergeSort] at hlen
  exact List.eq_nil_of_length_eq_zero hlen

theorem mem_sorted : p ∈ sorted ts ↔ p ∈ ts := List.mem_mergeSort

theorem least_sorted {ps : List (ℕ × ℤ)} (h : sorted ts = p :: ps) : least (ts.map Prod.snd) = p.2 := by
  have hp := List.pairwise_cons.mp (h ▸ sorted_pairwise ts)
  have hmin : (ts.map Prod.snd).min? = some p.2 := by
    apply List.min?_eq_some_iff.mpr
    constructor
    · exact List.mem_map.mpr ⟨p, mem_sorted.mp (h ▸ List.mem_cons_self), rfl⟩
    · intro x hx
      obtain ⟨q, hq, rfl⟩ := List.mem_map.mp hx
      have hq' : q ∈ p :: ps := h ▸ mem_sorted.mpr hq
      rcases List.mem_cons.mp hq' with rfl | hq'
      · exact le_rfl
      · exact hp.1 q hq'
  rw [least, hmin, Option.getD_some]

theorem greatest_sorted {ps : List (ℕ × ℤ)} (h : sorted ts = ps ++ [p]) :
    greatest (ts.map Prod.snd) = p.2 := by
  have hp := (List.pairwise_append.mp (h ▸ sorted_pairwise ts)).2.2
  have hmax : (ts.map Prod.snd).max? = some p.2 := by
    apply List.max?_eq_some_iff.mpr
    constructor
    · exact List.mem_map.mpr ⟨p, mem_sorted.mp (by simp [h]), rfl⟩
    · intro x hx
      obtain ⟨q, hq, rfl⟩ := List.mem_map.mp hx
      have hq' : q ∈ ps ++ [p] := h ▸ mem_sorted.mpr hq
      rcases List.mem_append.mp hq' with hq' | hq'
      · exact hp q hq' p (List.mem_singleton.mpr rfl)
      · rw [List.mem_singleton.mp hq']
  rw [greatest, hmax, Option.getD_some]

theorem sorted_expiry (ts : List (ℕ × ℤ)) :
    (sorted ts).map Prod.snd = (ts.map Prod.snd).mergeSort fun x y => decide (x ≤ y) := by
  have hsort : ((ts.map Prod.snd).mergeSort fun x y => decide (x ≤ y)).Pairwise (· ≤ ·) := by
    have h : ((ts.map Prod.snd).mergeSort fun x y => decide (x ≤ y)).Pairwise
        fun x y => decide (x ≤ y) = true :=
      List.pairwise_mergeSort (fun a b c h1 h2 => by simp at *; omega) (fun a b => by simp; omega) _
    exact h.imp fun h => by simpa using h
  have hperm : ((sorted ts).map Prod.snd).Perm ((ts.map Prod.snd).mergeSort fun x y => decide (x ≤ y)) :=
    ((List.mergeSort_perm _ _).map _).trans (List.mergeSort_perm _ _).symm
  exact hperm.eq_of_pairwise (fun a b _ _ h1 h2 => le_antisymm h1 h2)
    (List.pairwise_map.mpr (sorted_pairwise ts)) hsort

/-- The list holds the timers `ts`, each with its expiry time, and no other is alive. -/
structure Loaded (stl : SortTimerLst) (ts : List (ℕ × ℤ)) : Prop where
  holds : Holds Eq stl ((sorted ts).map Prod.fst)
  expire : ∀ t ∈ ts, expireAt stl.heap t.1 = t.2
  only : ∀ a ∉ ts.map Prod.fst, stl.heap a = none

theorem loaded_empty : Loaded .empty [] := ⟨by simpa [sorted] using holds_empty, by simp, fun _ _ => rfl⟩

theorem Loaded.add (h : Loaded stl seen) (ha : t.1 ∉ seen.map Prod.fst) :
    ∃ stl', (stl.alloc t.1 t.2 0).addTimer (some t.1) = some stl' ∧ Loaded stl' (seen ++ [t]) := by
  obtain ⟨stl', h1, -, h2, h3⟩ := h.holds.addNew (fun _ => rfl) (h.only t.1 ha) t.2 0
  have hlook : ∀ b, b ≠ t.1 → (stl'.heap b).map data = (stl.heap b).map data := by
    intro b hb
    rw [h2 b]
    simp [alloc, hb]
  have hnew : expireAt stl'.heap t.1 = t.2 := by
    rw [h2.expireAt_eq]
    simp [expireAt, alloc]
  have hold : ∀ p ∈ seen, expireAt stl'.heap p.1 = p.2 := by
    intro p hp
    have hne : p.1 ≠ t.1 := fun heq => ha (heq ▸ List.mem_map_of_mem hp)
    rw [expireAt_congr (hlook _ hne), h.expire p hp]
  have hins : insertBy (expireAt stl'.heap) t.1 ((sorted seen).map Prod.fst) =
      (sorted (seen ++ [t])).map Prod.fst := by
    rw [sorted_snoc]
    symm
    apply List.map_orderedInsert
    · intro p hp
      rw [hold p (mem_sorted.mp hp), hnew]
    · intro p hp
      rw [hold p (mem_sorted.mp hp), hnew]
  refine ⟨stl', h1, hins ▸ h3, fun p hp => ?_, fun b hb => ?_⟩
  · rcases List.mem_append.mp hp with hp | hp
    · exact hold p hp
    · rw [List.mem_singleton.mp hp]
      exact hnew
  · rw [List.map_append, List.mem_append, not_or] at hb
    have hbt : b ≠ t.1 := fun heq => hb.2 (by simp [heq])
    have hnone := hlook b hbt
    rw [h.only b hb.1] at hnone
    simpa using hnone

/-- `stl.head->expire`. -/
theorem Loaded.head (h : Loaded stl ts) (hne : ts ≠ []) :
    ∃ t, stl.deref stl.head = some t ∧ t.expire = least (ts.map Prod.snd) := by
  cases hsort : sorted ts with
  | nil => exact absurd hsort (sorted_ne_nil hne)
  | cons p ps =>
    have hmem : p ∈ sorted ts := hsort ▸ List.mem_cons_self
    obtain ⟨t, ht⟩ := h.holds.seg.mem (List.mem_map_of_mem hmem)
    have hhead : stl.head = some p.1 := by
      rw [h.holds.head_eq, hsort]
      rfl
    refine ⟨t, by rw [hhead, deref_some, ht], ?_⟩
    rw [least_sorted hsort, ← h.expire p (mem_sorted.mp hmem), expireAt_of_some ht]

/-- `stl.tail->expire`. -/
theorem Loaded.tail (h : Loaded stl ts) (hne : ts ≠ []) :
    ∃ t, stl.deref stl.tail = some t ∧ t.expire = greatest (ts.map Prod.snd) := by
  rcases List.eq_nil_or_concat (sorted ts) with hsort | ⟨ps, p, hsort⟩
  · exact absurd hsort (sorted_ne_nil hne)
  · rw [List.concat_eq_append] at hsort
    have hmem : p ∈ sorted ts := by simp [hsort]
    obtain ⟨t, ht⟩ := h.holds.seg.mem (List.mem_map_of_mem hmem)
    have htail : stl.tail = some p.1 := by
      rw [h.holds.tail (by simp [hsort]), hsort]
      simp
    refine ⟨t, by rw [htail, deref_some, ht], ?_⟩
    rw [greatest_sorted hsort, ← h.expire p (mem_sorted.mp hmem), expireAt_of_some ht]

theorem addLoop_spec (h : Loaded stl seen) (hnd : ((seen ++ ts).map Prod.fst).Nodup) (out : List Printed) :
    ∃ stl', addLoop ts stl out = some (stl', out ++ adding (seen.map Prod.snd) (ts.map Prod.snd)) ∧
      Loaded stl' (seen ++ ts) := by
  induction ts generalizing stl seen out with
  | nil => exact ⟨stl, by simp [addLoop, adding], by simpa using h⟩
  | cons t ts ih =>
    have ha : t.1 ∉ seen.map Prod.fst := by
      rw [List.map_append, List.map_cons] at hnd
      exact fun hmem => (List.nodup_append.mp hnd).2.2 _ hmem _ List.mem_cons_self rfl
    obtain ⟨stl1, h1, h2⟩ := h.add ha
    obtain ⟨th, hh, hleast⟩ := h2.head (by simp)
    obtain ⟨tt, ht, hgreatest⟩ := h2.tail (by simp)
    obtain ⟨stl', h3, h4⟩ := ih h2 (by simpa using hnd)
      (out ++ [.addingHead (lowInt th.expire), .addingTail (lowInt tt.expire)])
    refine ⟨stl', ?_, by simpa using h4⟩
    simp only [addLoop, h1, hh, ht, Option.bind_eq_bind, Option.bind_some, h3]
    simp [adding, hleast, hgreatest]

theorem traverse_spec {pr : Option ℕ} {q : Option ℕ} (hlen : xs.length < n)
    (hs : (links back).Seg stl.heap pr q xs none) (out : List Printed) :
    traverse n stl q out = some (out ++ xs.map fun a => .expire (expireAt stl.heap a)) := by
  induction xs generalizing n pr q out with
  | nil =>
    obtain ⟨n, rfl⟩ : ∃ m, n = m + 1 := ⟨n - 1, by simp at hlen; omega⟩
    have hq : q = none := hs
    simp [hq, traverse]
  | cons a xs ih =>
    obtain ⟨n, rfl⟩ : ∃ m, n = m + 1 := ⟨n - 1, by simp at hlen; omega⟩
    obtain ⟨rfl, t, ht, -, hrest⟩ := hs
    have hrun := ih (by simpa using hlen) hrest (out ++ [.expire t.expire])
    rw [links_next] at hrun
    simp only [traverse, ht, Option.bind_eq_bind, Option.bind_some, hrun]
    simp [expireAt_of_some ht]

/-- For any numbers the program prints the smallest and the largest so far after each, then all of
them in ascending order, and frees every timer.  With no numbers it crashes. -/
theorem main_report (hnd : (ts.map Prod.fst).Nodup) :
    (ts = [] → main ts = none) ∧ (ts ≠ [] →
      ∃ stl, main ts = some (stl, report (ts.map Prod.snd)) ∧ ∀ a, stl.heap a = none) := by
  constructor
  · rintro rfl
    rfl
  · intro hne
    have hnd' : (([] ++ ts).map Prod.fst).Nodup := hnd
    obtain ⟨stl, h1, h2⟩ := addLoop_spec loaded_empty hnd' [.head 0, .tail 0]
    rw [List.nil_append] at h2
    obtain ⟨th, hh, hleast⟩ := h2.head hne
    obtain ⟨tt, ht, hgreatest⟩ := h2.tail hne
    obtain ⟨stl', h3, -, h4⟩ := h2.holds.destroy
    have hlist : ((sorted ts).map Prod.fst).map (fun a => Printed.expire (expireAt stl.heap a)) =
        ((ts.map Prod.snd).mergeSort fun x y => decide (x ≤ y)).map .expire := by
      rw [← sorted_expiry, List.map_map, List.map_map]
      apply List.map_congr_left
      intro p hp
      simp [h2.expire p (mem_sorted.mp hp)]
    have htraverse := traverse_spec (Nat.lt_succ_of_le h2.holds.length_le) h2.holds.seg
      ([.head 0, .tail 0] ++ adding [] (ts.map Prod.snd) ++
        [.headValue (lowInt th.expire), .tailValue (lowInt tt.expire), .traversing])
    rw [hlist] at htraverse
    rw [List.map_nil] at h1
    refine ⟨stl', ?_, fun a => ?_⟩
    · simp only [main, h1, hh, ht, Option.bind_eq_bind, Option.bind_some]
      rw [htraverse, Option.bind_some, h3, Option.bind_some, hleast, hgreatest]
      rfl
    · rw [h4]
      split
      · rfl
      · next ha => exact h2.only a fun hmem => ha (by simpa [mem_sorted] using hmem)

theorem main_report_five : ∃ stl, main [(0, 5), (1, 63), (2, 1), (3, 2), (4, 2)] =
    some (stl, report [5, 63, 1, 2, 2]) ∧ ∀ a, stl.heap a = none :=
  (main_report (by decide)).2 (by decide)

/-- The session that the source records. -/
example : (main [(0, 5), (1, 63), (2, 1), (3, 2), (4, 2)]).map Prod.snd =
    some [.head 0, .tail 0, .addingHead 5, .addingTail 5, .addingHead 5, .addingTail 63, .addingHead 1,
      .addingTail 63, .addingHead 1, .addingTail 63, .addingHead 1, .addingTail 63, .headValue 1,
      .tailValue 63, .traversing, .expire 1, .expire 2, .expire 2, .expire 5, .expire 63] := by decide

end LinuxServer.TimerList
