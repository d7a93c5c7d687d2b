import LinuxServer.StableSort
import LinuxServer.TimerListSpec

/-!
# Order and links of the timer list

Here every `prev` has to be the inverse of `next`, as the operations of the list assume.
-/

namespace LinuxServer.TimerList
open Linkage

/-- In order of expiry. -/
def Sorted (h : ℕ → Option UtilTimer) (xs : List ℕ) : Prop :=
  xs.Pairwise fun x y => expireAt h x ≤ expireAt h y

theorem Sorted.congr {h h' : ℕ → Option UtilTimer} {xs : List ℕ} (hs : Sorted h xs)
    (hd : SameData h h') : Sorted h' xs := by
  unfold Sorted
  rw [hd.expireAt_eq]
  exact hs

theorem Sorted.insertBy_eq {h : ℕ → Option UtilTimer} {xs : List ℕ} (hs : Sorted h xs) (a : ℕ) :
    insertBy (expireAt h) a xs = placed (expireAt h) a xs := insertBehind_eq_placed a hs

theorem Sorted.placed {h : ℕ → Option UtilTimer} {xs : List ℕ} (hs : Sorted h xs) (a : ℕ) :
    Sorted h (placed (expireAt h) a xs) := by
  rw [← hs.insertBy_eq]
  exact insertBy_sorted a hs

namespace SortTimerLst

variable {l l' : SortTimerLst} {a b c : ℕ} {xs ys : List ℕ} {t u : UtilTimer} {x : ℤ}

/-- `l` is linked in both directions through `xs`, and `tail` is right even when nothing is
linked. -/
structure WellFormed (l : SortTimerLst) (xs : List ℕ) : Prop where
  holds : Holds Eq l xs
  tail : l.tail = lastPtr none xs

/-- The timers from `tail` on, along `prev`. -/
def timersBack (l : SortTimerLst) : List ℕ := (links Eq).reverse.chain l.heap l.cells l.tail

theorem Holds.timers_of_eq (h : Holds Eq l xs) : l.timers = xs := by
  have hn : (links weakBack).next = (links Eq).next := rfl
  unfold timers
  rw [chain_congr hn]
  exact h.seg.chain_eq h.length_le

theorem WellFormed.timersBack_eq (h : WellFormed l xs) : l.timersBack = xs.reverse := by
  have hs := h.holds.seg.reverse fun _ _ => id
  rw [← h.tail] at hs
  apply hs.chain_eq
  simpa using h.holds.length_le

/-! ### `add_timer` -/

/-- Every timer in turn is created and added. -/
def addAll (l : SortTimerLst) (ts : List (ℕ × ℤ)) : Option SortTimerLst :=
  ts.foldlM (fun l t => (l.alloc t.1 t.2 0).addTimer (some t.1)) l

theorem addTimer_placed (h : Holds Eq l xs) (hs : Sorted l.heap xs) (ha : a ∉ xs) (hca : a < l.cells)
    (hta : l.heap a = some t) (hp : t.prev = none) (hn : t.next = none) :
    ∃ l', l.addTimer (some a) = some l' ∧ WellFormed l' (placed (expireAt l.heap) a xs) ∧
      Sorted l'.heap (placed (expireAt l.heap) a xs) ∧ SameData l.heap l'.heap := by
  obtain ⟨l', h1, -, h3, h4⟩ := addTimer_spec (fun _ => rfl) h ha hca hta hp hn
  rw [hs.insertBy_eq] at h4
  have hne : placed (expireAt l.heap) a xs ≠ [] := by simp [placed]
  exact ⟨l', h1, ⟨h4, h4.tail hne⟩, (hs.placed a).congr h3, h3⟩

/-- Timers are added behind those that expire together with them. -/
theorem addAll_spec {ps : List (ℕ × ℤ)} (ts : List (ℕ × ℤ)) (h : Holds Eq l (ps.map Prod.fst))
    (he : ∀ p ∈ ps, expireAt l.heap p.1 = p.2) (hnd : (ts.map Prod.fst).Nodup)
    (hnew : ∀ t ∈ ts, l.heap t.1 = none) :
    ∃ l', l.addAll ts = some l' ∧ (ts = [] → l' = l) ∧
      Holds Eq l' ((ts.foldl (fun s x => insertBehind Prod.snd x s) ps).map Prod.fst) := by
  induction ts generalizing l ps with
  | nil => exact ⟨l, rfl, fun _ => rfl, h⟩
  | cons p ts ih =>
    obtain ⟨a, x⟩ := p
    rw [List.map_cons, List.nodup_cons] at hnd
    obtain ⟨l1, h1, hax, hd, h2⟩ := h.addNew (fun _ => rfl) (hnew (a, x) (by simp)) x 0
    have hea : expireAt l1.heap a = x := by
      rw [hd.expireAt_eq]
      simp [expireAt, alloc]
    have hlook : ∀ b, b ≠ a → (l1.heap b).map data = (l.heap b).map data := by
      intro b hba
      rw [hd b]
      simp [alloc, Function.update_of_ne hba]
    have heo : ∀ p ∈ ps, expireAt l1.heap p.1 = p.2 := by
      intro p hp
      have hpa : p.1 ≠ a := by
        intro heq
        exact hax (List.mem_map.mpr ⟨p, hp, heq⟩)
      rw [expireAt_congr (hlook _ hpa), he p hp]
    have hins : insertBy (expireAt l1.heap) a (ps.map Prod.fst) =
        (insertBehind Prod.snd (a, x) ps).map Prod.fst := by
      symm
      apply List.map_orderedInsert
      · intro p hp
        rw [heo p hp, hea]
      · intro p hp
        rw [heo p hp, hea]
    rw [hins] at h2
    have he1 : ∀ p ∈ insertBehind Prod.snd (a, x) ps, expireAt l1.heap p.1 = p.2 := by
      intro p hp
      rcases (List.mem_orderedInsert _).mp hp with rfl | hp
      · exact hea
      · exact heo p hp
    have hnew1 : ∀ t ∈ ts, l1.heap t.1 = none := by
      intro t ht
      have hta : t.1 ≠ a := by
        intro heq
        exact hnd.1 (List.mem_map.mpr ⟨t, ht, heq⟩)
      have := hlook _ hta
      rw [hnew t (by simp [ht])] at this
      simpa using this
    obtain ⟨l', h3, -, h4⟩ := ih h2 he1 hnd.2 hnew1
    refine ⟨l', ?_, fun hnil => by simp at hnil, h4⟩
    unfold addAll
    rw [List.foldlM_cons, h1]
    exact h3

/-- `add_timer` is stable sorted insertion, on the pointers of both directions. -/
theorem addTimer_stable :
    (∀ (l : SortTimerLst) (xs : List ℕ) (a : ℕ) (t : UtilTimer), Holds Eq l xs → Sorted l.heap xs →
      a ∉ xs → a < l.cells → l.heap a = some t → t.prev = none → t.next = none →
        ∃ l', l.addTimer (some a) = some l' ∧ WellFormed l' (placed (expireAt l.heap) a xs) ∧
          Sorted l'.heap (placed (expireAt l.heap) a xs) ∧ SameData l.heap l'.heap) ∧
    ∀ (l : SortTimerLst) (ts : List (ℕ × ℤ)), l.head = none → (ts.map Prod.fst).Nodup →
      (∀ t ∈ ts, l.heap t.1 = none) →
        ∃ l', l.addAll ts = some l' ∧
          l'.timers = (ts.mergeSort fun x y => decide (x.2 ≤ y.2)).map Prod.fst ∧
          (ts ≠ [] ∨ l.tail = none →
            l'.timersBack = ((ts.mergeSort fun x y => decide (x.2 ≤ y.2)).map Prod.fst).reverse) := by
  constructor
  · intro l xs a t h hs ha hca hta hp hn
    exact addTimer_placed h hs ha hca hta hp hn
  · intro l ts hh hnd hnew
    have h0 : Holds Eq l (([] : List (ℕ × ℤ)).map Prod.fst) :=
      ⟨hh, List.nodup_nil, fun _ hm => by simp at hm, fun hne => absurd rfl hne⟩
    obtain ⟨l', h1, h2, h3⟩ := addAll_spec ts h0 (by simp) hnd hnew
    rw [foldl_insertBehind_eq_mergeSort] at h3
    refine ⟨l', h1, h3.timers_of_eq, fun htail => ?_⟩
    apply WellFormed.timersBack_eq
    refine ⟨h3, ?_⟩
    by_cases hts : ts = []
    · subst hts
      rw [h2 rfl]
      simpa using htail
    · apply h3.tail
      intro hnil
      have hlen := congrArg List.length hnil
      simp [hts] at hlen

theorem addTimer_stable_ties :
    (∃ l', (⟨some 0, some 0, fun a => if a < 2 then some ⟨5, 0, none, none⟩ else none, 2⟩ :
        SortTimerLst).addTimer (some 1) = some l' ∧ WellFormed l' [0, 1]) ∧
    ∃ l', empty.addAll [(0, 5), (1, 3), (2, 5)] = some l' ∧ l'.timers = [1, 0, 2] ∧
      l'.timersBack = [2, 0, 1] := by
  have hsort : ([(0, 5), (1, 3), (2, 5)] : List (ℕ × ℤ)).mergeSort (fun x y => decide (x.2 ≤ y.2)) =
      [(1, 3), (0, 5), (2, 5)] := by
    rw [← foldl_insertBehind_eq_mergeSort Prod.snd]
    rfl
  constructor
  · obtain ⟨l', h1, h2, -⟩ := addTimer_stable.1
      ⟨some 0, some 0, fun a => if a < 2 then some ⟨5, 0, none, none⟩ else none, 2⟩ [0] 1
      ⟨5, 0, none, none⟩ ⟨⟨rfl, _, rfl, rfl, rfl⟩, by simp, by simp, fun _ => rfl⟩ (by simp [Sorted])
      (by simp) (by simp) rfl rfl rfl
    exact ⟨l', h1, h2⟩
  · obtain ⟨l', h1, h2, h3⟩ := addTimer_stable.2 empty [(0, 5), (1, 3), (2, 5)] rfl (by simp)
      (fun _ _ => rfl)
    rw [hsort] at h2 h3
    exact ⟨l', h1, h2, h3 (by simp)⟩

/-! ### `adjust_timer` -/

/-- `adjust_timer` has put `a` where its expiry time says and kept the order of the others. -/
def Resorted (l : SortTimerLst) (xs : List ℕ) (a : ℕ) : Prop :=
  ∃ l', l.adjustTimer (some a) = some l' ∧ WellFormed l' (placed (expireAt l.heap) a (xs.erase a)) ∧
    Sorted l'.heap (placed (expireAt l.heap) a (xs.erase a)) ∧ SameData l.heap l'.heap

theorem insertBy_append {e : ℕ → ℤ} (hxs : ∀ b ∈ xs, e b ≤ e a) :
    insertBy e a (xs ++ ys) = xs ++ insertBy e a ys := by
  induction xs with
  | nil => rfl
  | cons b xs ih =>
    have hb : ¬ e a < e b := not_lt.mpr (hxs b (by simp))
    rw [List.cons_append, insertBy_cons, if_neg hb, ih fun c hc => hxs c (by simp [hc]),
      List.cons_append]

theorem erase_middle (hnd : (xs ++ a :: ys).Nodup) : (xs ++ a :: ys).erase a = xs ++ ys := by
  have hax : a ∉ xs := by
    intro ha
    exact (List.nodup_append.mp hnd).2.2 a ha a (by simp) rfl
  rw [List.erase_append_right _ hax, List.erase_cons_head]

/-- The list right after the expiry time of `a` was raised: as it was, and in order apart from
`a`. -/
theorem WellFormed.raise (h : WellFormed l (xs ++ a :: ys)) (hs : Sorted l.heap (xs ++ a :: ys))
    (hx : expireAt l.heap a ≤ x) (hl : l.write (some a) (fun t => { t with expire := x }) = some l') :
    WellFormed l' (xs ++ a :: ys) ∧ Sorted l'.heap (xs ++ ys) ∧ expireAt l'.heap a = x ∧
      ∀ b ∈ xs, expireAt l'.heap b ≤ x := by
  obtain ⟨t, ht⟩ := h.holds.seg.mem (a := a) (by simp)
  obtain rfl : { l with heap := Function.update l.heap a (some { t with expire := x }) } = l' := by
    simpa [write, ht] using hl
  have hoth : ∀ b, b ≠ a → expireAt (Function.update l.heap a (some { t with expire := x })) b =
      expireAt l.heap b := by
    intro b hb
    simp [expireAt, Function.update_of_ne hb]
  have hne : ∀ b ∈ xs ++ ys, b ≠ a := by
    intro b hb heq
    subst heq
    have hperm : List.Perm (xs ++ b :: ys) (b :: (xs ++ ys)) := List.perm_middle
    exact (List.nodup_cons.mp (hperm.nodup_iff.mp h.holds.nodup)).1 hb
  obtain ⟨hsx, hsa, hcross⟩ := List.pairwise_append.mp hs
  refine ⟨⟨h.holds.setExpire ht x, h.tail⟩, ?_, by simp [expireAt], ?_⟩
  · have hsub : Sorted l.heap (xs ++ ys) := hs.sublist (by simp)
    unfold Sorted at hsub ⊢
    apply List.Pairwise.imp_of_mem _ hsub
    intro b c hb hc hbc
    rw [hoth b (hne b hb), hoth c (hne c hc)]
    exact hbc
  · intro b hb
    have hba := hcross b hb a (by simp)
    rw [hoth b (hne b (by simp [hb]))]
    omega

/-- A timer that may stay where it is does stay. -/
theorem resorted_of_stays (h : WellFormed l (xs ++ a :: ys)) (hs : Sorted l.heap (xs ++ ys))
    (hle : ∀ b ∈ xs, expireAt l.heap b ≤ expireAt l.heap a)
    (hlt : ∀ b, ys.head? = some b → expireAt l.heap a < expireAt l.heap b) :
    Resorted l (xs ++ a :: ys) a := by
  obtain ⟨t, ht⟩ := h.holds.seg.mem (a := a) (by simp)
  have herase := erase_middle h.holds.nodup
  have hplace : placed (expireAt l.heap) a ((xs ++ a :: ys).erase a) = xs ++ a :: ys := by
    rw [herase, ← hs.insertBy_eq, insertBy_append hle]
    cases ys with
    | nil => rfl
    | cons b ys => rw [insertBy_cons, if_pos (hlt b rfl)]
  have hord := hs.placed a
  rw [← herase, hplace] at hord
  refine ⟨l, ?_, by rwa [hplace], by rwa [hplace], .refl _⟩
  obtain ⟨r, -, -, t1, ht1, -, hrest⟩ := seg_append.mp h.holds.seg
  obtain rfl : t = t1 := Option.some.inj (ht.symm.trans ht1)
  apply adjustTimer_stays ht
  cases ys with
  | nil => exact .inl hrest
  | cons b ys =>
    obtain ⟨hn, u, hu, -⟩ := hrest
    refine .inr ⟨b, u, hn, hu, ?_⟩
    have := hlt b rfl
    rwa [expireAt_of_some ht, expireAt_of_some hu] at this

/-- The head, when it has to move, is moved properly. -/
theorem resorted_of_head (h : WellFormed l (a :: b :: ys)) (hs : Sorted l.heap (b :: ys))
    (hge : ¬ expireAt l.heap a < expireAt l.heap b) : Resorted l (a :: b :: ys) a := by
  obtain ⟨-, t, ht, -, hn, u, hu, -⟩ := h.holds.seg
  have hlt : ¬ t.expire < u.expire := by rwa [← expireAt_of_some ht, ← expireAt_of_some hu]
  obtain ⟨l', h1, -, h3, h4⟩ := adjustTimer_moves (fun _ => rfl) ys h.holds ht hn hu hlt
  have hplace : placed (expireAt l.heap) a ((a :: b :: ys).erase a) =
      b :: insertBy (expireAt l.heap) a ys := by
    rw [List.erase_cons_head, ← hs.insertBy_eq, insertBy_cons, if_neg hge]
  have hord := (hs.placed a).congr h3
  rw [← List.erase_cons_head a (b :: ys), hplace] at hord
  unfold Resorted
  rw [hplace]
  exact ⟨l', h1, ⟨h4, h4.tail (by simp)⟩, hord, h3⟩

/-- When another timer has to move, the head is taken out instead, which should have stayed
in front. -/
theorem not_resorted_of_behind (h : WellFormed l (c :: xs ++ a :: b :: ys))
    (hs : Sorted l.heap (c :: xs ++ b :: ys)) (hle : expireAt l.heap c ≤ expireAt l.heap a)
    (hge : ¬ expireAt l.heap a < expireAt l.heap b) : ¬ Resorted l (c :: xs ++ a :: b :: ys) a := by
  rintro ⟨l', h1, h2, -⟩
  obtain ⟨r, -, -, t, ht, -, hn, u, hu, -⟩ := seg_append.mp h.holds.seg
  have hlt : ¬ t.expire < u.expire := by rwa [← expireAt_of_some ht, ← expireAt_of_some hu]
  obtain ⟨d, zs, hd⟩ : ∃ d zs, xs ++ a :: b :: ys = d :: zs := List.exists_cons_of_ne_nil (by simp)
  have hxs : c :: xs ++ a :: b :: ys = c :: d :: zs := by rw [List.cons_append, hd]
  have hcd : c ≠ d := by
    rintro rfl
    have hnd := h.holds.nodup
    rw [hxs] at hnd
    simp at hnd
  obtain ⟨l'', h3, -, -, h4⟩ := adjustTimer_moves (fun _ => rfl) zs (hxs ▸ h.holds) ht hn hu hlt
  obtain rfl := Option.some.inj (h1.symm.trans h3)
  have hplace : placed (expireAt l.heap) a ((c :: xs ++ a :: b :: ys).erase a) =
      c :: insertBy (expireAt l.heap) a (xs ++ b :: ys) := by
    rw [erase_middle h.holds.nodup, ← hs.insertBy_eq, List.cons_append, insertBy_cons,
      if_neg (not_lt.mpr hle)]
  have hc := h2.holds.head_eq
  rw [hplace, h4.head_eq] at hc
  exact hcd (Option.some.inj hc).symm

/-- `adjust_timer` re-sorts exactly when the timer it is called with is the head, which is the
one it moves, or may stay where it is. -/
theorem adjustTimer_resorts {l₀ : SortTimerLst} (h : WellFormed l₀ xs) (hs : Sorted l₀.heap xs)
    (ha : a ∈ xs) (hx : expireAt l₀.heap a ≤ x)
    (hl : l₀.write (some a) (fun t => { t with expire := x }) = some l) :
    Resorted l xs a ↔
      l.head = some a ∨ ∀ t b, l.heap a = some t → t.next = some b → x < expireAt l.heap b := by
  obtain ⟨xs, ys, rfl⟩ := List.append_of_mem ha
  obtain ⟨hw, hord, rfl, hle⟩ := h.raise hs hx hl
  obtain ⟨r, -, -, t, ht, -, hrest⟩ := seg_append.mp hw.holds.seg
  cases ys with
  | nil =>
    have hn : t.next = none := hrest
    apply iff_of_true
    · apply resorted_of_stays hw hord hle
      simp
    · right
      intro t' b ht' hb
      obtain rfl := Option.some.inj (ht.symm.trans ht')
      simp [hn] at hb
  | cons b ys =>
    have hn : t.next = some b := hrest.1
    by_cases hlt : expireAt l.heap a < expireAt l.heap b
    · apply iff_of_true
      · apply resorted_of_stays hw hord hle
        simpa using hlt
      · right
        intro t' c ht' hc
        obtain rfl := Option.some.inj (ht.symm.trans ht')
        obtain rfl := Option.some.inj (hn.symm.trans hc)
        exact hlt
    · have hhead := hw.holds.head_eq
      cases xs with
      | nil =>
        apply iff_of_true
        · exact resorted_of_head hw hord hlt
        · exact .inl hhead
      | cons c xs =>
        have hca : c ≠ a := by
          rintro rfl
          exact (List.nodup_cons.mp hw.holds.nodup).1 (by simp)
        apply iff_of_false
        · exact not_resorted_of_behind hw hord (hle c (by simp)) hlt
        · rintro (h1 | h1)
          · rw [hhead] at h1
            exact hca (Option.some.inj h1)
          · exact hlt (h1 t b ht hn)

/-- Three timers, linked as the operations link them. -/
def threeLinked : SortTimerLst where
  head := some 0
  tail := some 2
  heap
    | 0 => some ⟨1, 0, none, some 1⟩
    | 1 => some ⟨2, 0, some 0, some 2⟩
    | 2 => some ⟨3, 0, some 1, none⟩
    | _ => none
  cells := 3

theorem threeLinked_wellFormed : WellFormed threeLinked [0, 1, 2] where
  holds := ⟨⟨rfl, _, rfl, rfl, rfl, _, rfl, rfl, rfl, _, rfl, rfl, rfl⟩, by simp, by decide,
    fun _ => rfl⟩
  tail := rfl

theorem threeLinked_sorted : Sorted threeLinked.heap [0, 1, 2] := by
  simp [Sorted, expireAt, threeLinked]

/-- The second of three timers is to move behind the third; the first one is moved. -/
theorem adjustTimer_unsorted : WellFormed threeLinked [0, 1, 2] ∧ Sorted threeLinked.heap [0, 1, 2] ∧
    expireAt threeLinked.heap 1 ≤ 9 ∧
    ∃ l, threeLinked.write (some 1) (fun t => { t with expire := 9 }) = some l ∧
      ¬ Resorted l [0, 1, 2] 1 := by
  refine ⟨threeLinked_wellFormed, threeLinked_sorted, by decide, _, rfl, ?_⟩
  rintro ⟨l', h1, h2, -⟩
  have hhead : l'.head = some 1 := by
    have h3 := congrArg (Option.map head) h1
    exact (Option.some.inj h3).symm
  have h3 := h2.holds.head_eq
  rw [hhead] at h3
  exact absurd h3 (by decide)

theorem adjustTimer_resorts_head :
    ∃ l, threeLinked.write (some 0) (fun t => { t with expire := 2 }) = some l ∧
      Resorted l [0, 1, 2] 0 := by
  refine ⟨_, rfl, ?_⟩
  apply (adjustTimer_resorts threeLinked_wellFormed threeLinked_sorted (by simp) (by decide) rfl).mpr
  exact .inl rfl

/-! ### `del_timer` -/

/-- The timers `as` can be deleted one after the other, each of them gone afterwards and the
list of the others well formed. -/
def Removed : SortTimerLst → List ℕ → List ℕ → Prop
  | l, xs, [] => WellFormed l xs
  | l, xs, a :: as => ∃ l', l.delTimer (some a) = some l' ∧ WellFormed l' (xs.erase a) ∧
      SameData (Function.update l.heap a none) l'.heap ∧ Removed l' (xs.erase a) as

/-- None of the timers `as` is the first of two or more when its turn comes. -/
def Deletable : List ℕ → List ℕ → Prop
  | _, [] => True
  | xs, a :: as => (xs.head? = some a → xs = [a]) ∧ Deletable (xs.erase a) as

/-- A head that leaves others behind leaves its address in the `prev` of the new head. -/
theorem delTimer_head_prev (h : Holds Eq l (a :: b :: ys)) (hdel : l.delTimer (some a) = some l') :
    ∃ t, l'.heap b = some t ∧ t.prev = some a := by
  obtain ⟨-, t, ht, -, -, u, hu, hprev, hrest⟩ := h.seg
  obtain ⟨ham, hnd⟩ := List.nodup_cons.mp h.nodup
  have hba : b ≠ a := by
    rintro rfl
    simp at ham
  rw [delTimer_of_head h hu] at hdel
  cases ys with
  | nil =>
    have hn : u.next = none := hrest
    simp [hn, setPrev, write] at hdel
  | cons c ys =>
    obtain ⟨hn, v, hv, -⟩ := hrest
    simp only [links_next] at hn
    have hca : c ≠ a := by
      rintro rfl
      simp at ham
    have hcb : c ≠ b := by
      rintro rfl
      simp at hnd
    simp only [hn, setPrev, write, free, Option.bind_eq_bind, Option.bind_some, hv,
      Function.update_of_ne hca.symm, ht] at hdel
    obtain rfl := Option.some.inj hdel
    exact ⟨u, by simp [Function.update_of_ne hba, Function.update_of_ne hcb.symm, hu], hprev⟩

/-- One deletion is right unless it is the deletion of a head with others behind it. -/
theorem delTimer_iff (h : WellFormed l xs) (ha : a ∈ xs) :
    (∃ l', l.delTimer (some a) = some l' ∧ WellFormed l' (xs.erase a) ∧
      SameData (Function.update l.heap a none) l'.heap) ↔ (xs.head? = some a → xs = [a]) := by
  obtain ⟨t, ht⟩ := h.holds.seg.mem ha
  obtain ⟨pre, ys, rfl, -⟩ := h.holds.split ha ht
  rw [erase_middle h.holds.nodup]
  rcases List.eq_nil_or_concat pre with rfl | ⟨qs, p, rfl⟩
  · cases ys with
    | nil =>
      apply iff_of_true _ fun _ => rfl
      obtain ⟨l', h1, -, h3, h4, h5⟩ := delTimer_only h.holds
      exact ⟨l', h1, ⟨h4, h5⟩, h3⟩
    | cons b ys =>
      apply iff_of_false
      · rintro ⟨l', h1, h2, -⟩
        obtain ⟨u, hu, hprev⟩ := delTimer_head_prev h.holds h1
        obtain ⟨-, u1, hu1, hback, -⟩ := h2.holds.seg
        obtain rfl := Option.some.inj (hu.symm.trans hu1)
        cases hprev.symm.trans hback
      · intro hone
        simpa using hone rfl
  · rw [List.concat_eq_append, List.append_assoc, List.singleton_append] at h ha ⊢
    obtain ⟨r, -, -, tp, -, -, -, t1, ht1, hprev, -⟩ := seg_append.mp h.holds.seg
    obtain rfl := Option.some.inj (ht.symm.trans ht1)
    apply iff_of_true
    · obtain ⟨l', h1, -, h3, h4⟩ := delTimer_behind (fun _ => rfl) h.holds ht hprev
      exact ⟨l', h1, ⟨h4, h4.tail (by simp)⟩, h3⟩
    · intro hhead
      -- the head stands in front of `a`
      have hnd := h.holds.nodup
      cases qs with
      | nil =>
        obtain rfl : p = a := by simpa using hhead
        simp at hnd
      | cons q qs =>
        obtain rfl : q = a := by simpa using hhead
        simp at hnd

/-- Deletions, one after the other, are right exactly as long as none of them is the deletion
of a head with others behind it. -/
theorem delTimer_removes {as : List ℕ} (h : WellFormed l xs) (hnd : as.Nodup) (hsub : as ⊆ xs) :
    Removed l xs as ↔ Deletable xs as := by
  induction as generalizing l xs with
  | nil => exact iff_of_true h trivial
  | cons a as ih =>
    obtain ⟨haas, hnd'⟩ := List.nodup_cons.mp hnd
    have hsub' : as ⊆ xs.erase a := by
      intro b hb
      have hba : b ≠ a := by
        rintro rfl
        exact haas hb
      exact (List.mem_erase_of_ne hba).mpr (hsub (by simp [hb]))
    have hstep := delTimer_iff h (hsub (by simp : a ∈ a :: as))
    constructor
    · rintro ⟨l', h1, h2, h3, h4⟩
      exact ⟨hstep.mp ⟨l', h1, h2, h3⟩, (ih h2 hnd' hsub').mp h4⟩
    · rintro ⟨h1, h2⟩
      obtain ⟨l', h3, h4, h5⟩ := hstep.mpr h1
      exact ⟨l', h3, h4, h5, (ih h4 hnd' hsub').mpr h2⟩

/-- Of three timers the head is deleted, which leaves a wrong `prev` behind; the deletion of
the next head then crashes. -/
theorem delTimer_unlinked : WellFormed threeLinked [0, 1, 2] ∧ ¬ Removed threeLinked [0, 1, 2] [0] ∧
    (threeLinked.delTimer (some 0)).bind (fun l => l.delTimer (some 1)) = none := by
  refine ⟨threeLinked_wellFormed, ?_, rfl⟩
  rintro ⟨l', h1, h2, -⟩
  obtain ⟨t, ht, hprev⟩ := delTimer_head_prev threeLinked_wellFormed.holds h1
  obtain ⟨-, t1, ht1, hback, -⟩ := h2.holds.seg
  obtain rfl := Option.some.inj (ht.symm.trans ht1)
  cases hprev.symm.trans hback

theorem delTimer_removes_three : Removed threeLinked [0, 1, 2] [1, 2, 0] := by
  apply (delTimer_removes threeLinked_wellFormed (by simp) (by simp)).mpr
  simp [Deletable]

end SortTimerLst

end LinuxServer.TimerList
