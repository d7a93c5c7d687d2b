import LinuxServer.TimerList
import Mathlib.Data.List.Perm.Subperm
import Mathlib.Data.List.TakeWhile

namespace LinuxServer.TimerList
open Linkage

/-- The links of timers, up to a choice of which stored `prev` is acceptable. -/
def links (back : Option ℕ → Option ℕ → Prop) : Linkage UtilTimer where
  next := UtilTimer.next
  prev := UtilTimer.prev
  back := back

@[simp] theorem links_next (back : Option ℕ → Option ℕ → Prop) (t : UtilTimer) :
    (links back).next t = t.next := rfl
@[simp] theorem links_prev (back : Option ℕ → Option ℕ → Prop) (t : UtilTimer) :
    (links back).prev t = t.prev := rfl
@[simp] theorem links_back (back : Option ℕ → Option ℕ → Prop) (x y : Option ℕ) :
    (links back).back x y = back x y := rfl

/-- A timer behind another one has that one, or nothing, in its `prev`; what the
head of the list has there is left open.  This is as much as `del_timer` keeps. -/
def weakBack (x pr : Option ℕ) : Prop := ∀ p, pr = some p → x = some p ∨ x = none

theorem weakBack_self (p : Option ℕ) : weakBack p p := fun _ h => .inl h

/-- The part of a timer that no list operation writes. -/
def data (t : UtilTimer) : ℤ × ℤ := (t.expire, t.userData)

def SameData (h h' : ℕ → Option UtilTimer) : Prop :=
  ∀ a, (h' a).map data = (h a).map data

theorem SameData.refl (h : ℕ → Option UtilTimer) : SameData h h := fun _ => rfl

theorem SameData.trans {h h' h'' : ℕ → Option UtilTimer} (h1 : SameData h h')
    (h2 : SameData h' h'') : SameData h h'' := fun a => (h2 a).trans (h1 a)

theorem SameData.lookup {h h' : ℕ → Option UtilTimer} (hs : SameData h h') {a : ℕ} {t : UtilTimer}
    (ht : h a = some t) : ∃ t', h' a = some t' ∧ t'.expire = t.expire ∧ t'.userData = t.userData := by
  have h1 := hs a
  rw [ht, Option.map_some, Option.map_eq_some_iff] at h1
  obtain ⟨t', ht', hd⟩ := h1
  exact ⟨t', ht', congrArg Prod.fst hd, congrArg Prod.snd hd⟩

theorem SameData.symm {h h' : ℕ → Option UtilTimer} (hs : SameData h h') : SameData h' h :=
  fun a => (hs a).symm

theorem SameData.update {h h' : ℕ → Option UtilTimer} {a : ℕ} {t t' : UtilTimer}
    (hs : SameData h h') (ht : h a = some t) (hd : data t' = data t) :
    SameData h (Function.update h' a (some t')) := by
  intro x
  by_cases hx : x = a
  · subst hx; simp [ht, hd]
  · simpa [Function.update_of_ne hx] using hs x

theorem SameData.free {h h' : ℕ → Option UtilTimer} (hs : SameData h h') (a : ℕ) :
    SameData (Function.update h a none) (Function.update h' a none) := by
  intro x
  by_cases hx : x = a
  · subst hx; simp
  · simpa [Function.update_of_ne hx] using hs x

/-- The expiry time of the timer at `a`. -/
def expireAt (h : ℕ → Option UtilTimer) (a : ℕ) : ℤ := (h a).elim 0 UtilTimer.expire

theorem expireAt_of_some {h : ℕ → Option UtilTimer} {a : ℕ} {t : UtilTimer} (ht : h a = some t) :
    expireAt h a = t.expire := by simp [expireAt, ht]

theorem expireAt_congr {h h' : ℕ → Option UtilTimer} {a : ℕ} (hs : (h' a).map data = (h a).map data) :
    expireAt h' a = expireAt h a := by
  cases hh : h a with
  | none =>
    have : h' a = none := by simpa [hh] using hs
    simp [expireAt, hh, this]
  | some t =>
    rw [hh, Option.map_some, Option.map_eq_some_iff] at hs
    obtain ⟨t', ht', hd⟩ := hs
    rw [expireAt_of_some ht', expireAt_of_some hh]
    exact congrArg Prod.fst hd

theorem SameData.expireAt_eq {h h' : ℕ → Option UtilTimer} (hs : SameData h h') :
    expireAt h' = expireAt h := funext fun a => expireAt_congr (hs a)

/-- The place `add_timer` gives a timer: in front of the first one that expires later. -/
def insertBy (e : ℕ → ℤ) (a : ℕ) (xs : List ℕ) : List ℕ :=
  xs.orderedInsert (fun x y => e x < e y) a

@[simp] theorem insertBy_nil (e : ℕ → ℤ) (a : ℕ) : insertBy e a [] = [a] := rfl

theorem insertBy_cons (e : ℕ → ℤ) (a b : ℕ) (xs : List ℕ) :
    insertBy e a (b :: xs) = if e a < e b then a :: b :: xs else b :: insertBy e a xs := rfl

theorem insertBy_perm (e : ℕ → ℤ) (a : ℕ) (xs : List ℕ) : (insertBy e a xs).Perm (a :: xs) :=
  List.perm_orderedInsert _ a xs

@[simp] theorem mem_insertBy {e : ℕ → ℤ} {a b : ℕ} {xs : List ℕ} :
    b ∈ insertBy e a xs ↔ b = a ∨ b ∈ xs := by
  rw [(insertBy_perm e a xs).mem_iff, List.mem_cons]

/-- Sorted insertion keeps a list sorted. -/
theorem insertBy_sorted {e : ℕ → ℤ} {xs : List ℕ} (a : ℕ)
    (h : xs.Pairwise fun x y => e x ≤ e y) :
    (insertBy e a xs).Pairwise fun x y => e x ≤ e y := by
  induction xs with
  | nil => simp
  | cons b xs ih =>
    obtain ⟨hb, hxs⟩ := List.pairwise_cons.mp h
    rw [insertBy_cons]
    split
    next hlt =>
      refine List.pairwise_cons.mpr ⟨fun c hc => ?_, h⟩
      rcases List.mem_cons.mp hc with rfl | hc
      · exact hlt.le
      · exact hlt.le.trans (hb c hc)
    next hge =>
      refine List.pairwise_cons.mpr ⟨fun c hc => ?_, ih hxs⟩
      rcases mem_insertBy.mp hc with rfl | hc
      · exact not_lt.mp hge
      · exact hb c hc

/-- In a sorted list no timer behind the first one that is not due is due. -/
theorem lt_of_mem_dropWhile {e : ℕ → ℤ} {xs : List ℕ} {a : ℕ} {cur : ℤ}
    (h : xs.Pairwise fun x y => e x ≤ e y) (ha : a ∈ xs.dropWhile (e · ≤ cur)) : cur < e a := by
  obtain ⟨b, ys, hys⟩ := List.exists_cons_of_ne_nil (List.ne_nil_of_mem ha)
  have hb : ¬ e b ≤ cur := by
    have := List.head_dropWhile_not (fun a => decide (e a ≤ cur)) (List.ne_nil_of_mem ha)
    simpa [hys] using this
  have hsub : (b :: ys).Pairwise fun x y => e x ≤ e y :=
    hys ▸ h.sublist (List.dropWhile_sublist _)
  rw [hys] at ha
  rcases List.mem_cons.mp ha with rfl | ha
  · omega
  · have := (List.pairwise_cons.mp hsub).1 a ha
    omega

/-- The timers in front of it are all that are due. -/
theorem mem_takeWhile_of_sorted {e : ℕ → ℤ} {xs : List ℕ} {a : ℕ} {cur : ℤ}
    (h : xs.Pairwise fun x y => e x ≤ e y) : a ∈ xs.takeWhile (e · ≤ cur) ↔ a ∈ xs ∧ e a ≤ cur := by
  constructor
  · intro ha
    exact ⟨(List.takeWhile_sublist _).subset ha, by simpa using List.mem_takeWhile_imp ha⟩
  · rintro ⟨ha, hle⟩
    rw [← List.takeWhile_append_dropWhile (p := fun a => decide (e a ≤ cur)) (l := xs)] at ha
    rcases List.mem_append.mp ha with ha | ha
    · exact ha
    · have := lt_of_mem_dropWhile h ha
      omega

/-- The timers behind are the others. -/
theorem mem_dropWhile_iff {p : ℕ → Bool} {xs : List ℕ} {a : ℕ} (hnd : xs.Nodup) :
    a ∈ xs.dropWhile p ↔ a ∈ xs ∧ a ∉ xs.takeWhile p := by
  have hsplit := List.takeWhile_append_dropWhile (p := p) (l := xs)
  rw [← hsplit] at hnd
  obtain ⟨-, -, hdis⟩ := List.nodup_append.mp hnd
  constructor
  · exact fun ha => ⟨(List.dropWhile_sublist p).subset ha, fun hf => hdis a hf a ha rfl⟩
  · rintro ⟨ha, hno⟩
    rw [← hsplit] at ha
    exact (List.mem_append.mp ha).resolve_left hno

/-! ## What the list operations do -/

namespace SortTimerLst

variable {back : Option ℕ → Option ℕ → Prop} {l l' : SortTimerLst} {a p b n : ℕ}
  {xs ys : List ℕ} {t u : UtilTimer}

@[simp] theorem deref_none (l : SortTimerLst) : l.deref none = none := rfl
@[simp] theorem deref_some (l : SortTimerLst) (a : ℕ) : l.deref (some a) = l.heap a := rfl

theorem setNext_of_some (ht : l.heap a = some t) (q : Option ℕ) : l.setNext (some a) q =
    some { l with heap := Function.update l.heap a (some { t with next := q }) } := by
  simp [setNext, write, ht]

theorem setPrev_of_some (ht : l.heap a = some t) (q : Option ℕ) : l.setPrev (some a) q =
    some { l with heap := Function.update l.heap a (some { t with prev := q }) } := by
  simp [setPrev, write, ht]

theorem free_of_some (ht : l.heap a = some t) :
    l.free a = some { l with heap := Function.update l.heap a none } := by
  simp [free, ht]

/-- `l` holds the timers `xs`, in this order from the head. -/
structure Holds (back : Option ℕ → Option ℕ → Prop) (l : SortTimerLst) (xs : List ℕ) : Prop where
  seg : (links back).Seg l.heap none l.head xs none
  nodup : xs.Nodup
  bound : ∀ a ∈ xs, a < l.cells
  tail : xs ≠ [] → l.tail = lastPtr none xs

theorem Holds.length_le (h : Holds back l xs) : xs.length ≤ l.cells := by
  have hsub : xs ⊆ List.range l.cells := fun a ha => List.mem_range.mpr (h.bound a ha)
  simpa using (h.nodup.subperm hsub).length_le

/-- The timers from `head` on. -/
def timers (l : SortTimerLst) : List ℕ := (links weakBack).chain l.heap l.cells l.head

theorem Holds.timers_eq (h : Holds weakBack l xs) : l.timers = xs := h.seg.chain_eq h.length_le

theorem Holds.head_eq (h : Holds back l xs) : l.head = firstPtr none xs := h.seg.first

theorem Holds.map_data (h : Holds back l xs) (ha : a ∈ xs) :
    (l.heap a).map data = some (expireAt l.heap a, (l.heap a).elim 0 UtilTimer.userData) := by
  obtain ⟨t, ht⟩ := h.seg.mem ha
  simp [ht, data, expireAt]

theorem holds_empty : Holds back empty [] :=
  ⟨rfl, List.nodup_nil, fun _ h => by simp at h, fun h => absurd rfl h⟩

/-- The list does not depend on the expiry times. -/
theorem Holds.setExpire (h : Holds back l xs) (ht : l.heap a = some t) (expire : ℤ) :
    Holds back { l with heap := Function.update l.heap a (some { t with expire := expire }) } xs :=
  ⟨h.seg.write ht rfl rfl, h.nodup, h.bound, h.tail⟩

/-- From the cell `p` on, the loop puts `a` where `insertBy` does. -/
theorem insertLoop_spec (xs : List ℕ) (hb : ∀ p, back p p) (hlen : ys.length < n)
    (hs : (links back).Seg l.heap none l.head (xs ++ p :: ys) none)
    (hnd : (xs ++ p :: ys).Nodup) (ha : a ∉ xs ++ p :: ys) (hta : l.heap a = some t) :
    ∃ l', insertLoop n l (some a) (some p) (firstPtr none ys) = some l' ∧
      l'.head = l.head ∧ l'.cells = l.cells ∧ SameData l.heap l'.heap ∧
      (links back).Seg l'.heap none l.head (xs ++ p :: insertBy (expireAt l.heap) a ys) none ∧
      (l.tail = lastPtr none (xs ++ p :: ys) →
        l'.tail = lastPtr none (xs ++ p :: insertBy (expireAt l.heap) a ys)) := by
  induction ys generalizing xs p n with
  | nil =>
    -- behind the last timer, which makes `a` the new tail
    obtain ⟨n, rfl⟩ : ∃ m, n = m + 1 := ⟨n - 1, by simp at hlen; omega⟩
    obtain ⟨tp, htp⟩ := hs.mem (a := p) (by simp)
    have hpa : p ≠ a := by rintro rfl; simp at ha
    refine ⟨{ l with
        heap := Function.update (Function.update l.heap p (some { tp with next := some a })) a
          (some { t with prev := some p, next := none })
        tail := some a }, ?_, rfl, rfl, ?_, ?_, fun _ => by simp⟩
    · simp [insertLoop, setNext, setPrev, write, htp, hta, hpa.symm]
    · refine .update (.update (.refl _) htp ?_) hta ?_ <;> rfl
    · refine hs.insertAfter (a := a) (u := { t with prev := some p, next := none })
        { tp with next := some a } hnd ha ?_ htp ?_ rfl rfl ?_ rfl (hb _) ?_
      · intro c hca hcp _
        simp [Function.update_of_ne hca, Function.update_of_ne hcp]
      · simp [Function.update_of_ne hpa]
      · simp
      · simp
  | cons b ys ih =>
    obtain ⟨n, rfl⟩ : ∃ m, n = m + 1 := ⟨n - 1, by simp at hlen; omega⟩
    obtain ⟨tp, htp⟩ := hs.mem (a := p) (by simp)
    obtain ⟨tb, htb⟩ := hs.mem (a := b) (by simp)
    have hpa : p ≠ a := by rintro rfl; simp at ha
    have hba : b ≠ a := by rintro rfl; simp at ha
    have hpb : p ≠ b := by
      rintro rfl
      exact (List.nodup_cons.mp (List.nodup_append.mp hnd).2.1).1 (by simp)
    rw [insertBy_cons, expireAt_of_some hta, expireAt_of_some htb, firstPtr_cons]
    by_cases hlt : t.expire < tb.expire
    · -- between `p` and `b`
      rw [if_pos hlt]
      refine ⟨{ l with
          heap := Function.update (Function.update (Function.update l.heap p
            (some { tp with next := some a })) a (some { t with prev := some p, next := some b })) b
            (some { tb with prev := some a }) }, ?_, rfl, rfl, ?_, ?_, fun h => by simpa using h⟩
      · simp only [insertLoop, deref_some, hta, htb, Option.bind_eq_bind, Option.bind_some, if_pos hlt,
          setNext, setPrev, write, htp, Function.update_of_ne hpa.symm, Function.update_self,
          Function.update_of_ne hba, Function.update_of_ne hpb.symm, Function.update_of_ne hba.symm]
        congr 2
        funext x
        simp only [Function.update_apply]
        split_ifs <;> simp_all
      · refine .update (.update (.update (.refl _) htp ?_) hta ?_) htb ?_ <;> rfl
      · refine hs.insertAfter (a := a) (u := { t with prev := some p, next := some b })
          { tp with next := some a } hnd ha ?_ htp ?_ rfl rfl ?_ rfl (hb _) ?_
        · intro c hca hcp hcb
          have hcb : c ≠ b := by rintro rfl; simp at hcb
          simp [Function.update_of_ne hca, Function.update_of_ne hcp, Function.update_of_ne hcb]
        · simp [Function.update_of_ne hpa, Function.update_of_ne hpb]
        · simp [Function.update_of_ne hba.symm]
        · intro c v hc hv
          obtain rfl : b = c := by simpa using hc
          obtain rfl : tb = v := Option.some.inj (htb.symm.trans hv)
          exact ⟨{ tb with prev := some a }, by simp, rfl, hb _⟩
    · -- behind `b`: the loop goes on from there
      rw [if_neg hlt]
      have hnext : tb.next = firstPtr none ys := by
        obtain ⟨r, -, -, t1, -, -, -, t2, ht2, -, hrest⟩ := seg_append.mp hs
        obtain rfl : tb = t2 := Option.some.inj (htb.symm.trans ht2)
        exact hrest.first
      obtain ⟨l', h1, h2, h3, h4, h5, h6⟩ := ih (xs ++ [p]) (n := n) (p := b)
        (by simp at hlen; omega) (by simpa using hs) (by simpa using hnd) (by simpa using ha)
      refine ⟨l', ?_, h2, h3, h4, by simpa using h5, fun h => by simpa using h6 (by simpa using h)⟩
      simp only [insertLoop, deref_some, hta, htb, Option.bind_eq_bind, Option.bind_some, if_neg hlt,
        hnext]
      exact h1

theorem addTimerAfter_spec (hb : ∀ p, back p p)
    (hs : (links back).Seg l.heap none l.head (p :: ys) none) (hnd : (p :: ys).Nodup)
    (hc : ys.length ≤ l.cells) (ha : a ∉ p :: ys) (hta : l.heap a = some t) :
    ∃ l', l.addTimerAfter (some a) (some p) = some l' ∧
      l'.head = l.head ∧ l'.cells = l.cells ∧ SameData l.heap l'.heap ∧
      (links back).Seg l'.heap none l.head (p :: insertBy (expireAt l.heap) a ys) none ∧
      (l.tail = lastPtr none (p :: ys) →
        l'.tail = lastPtr none (p :: insertBy (expireAt l.heap) a ys)) := by
  obtain ⟨tp, htp⟩ := hs.mem (a := p) (by simp)
  have hnext : tp.next = firstPtr none ys := by
    obtain ⟨-, t1, ht1, -, hrest⟩ := hs
    obtain rfl : tp = t1 := Option.some.inj (htp.symm.trans ht1)
    exact hrest.first
  obtain ⟨l', h1, h2⟩ := insertLoop_spec [] (n := l.cells + 1) hb (by omega) hs hnd ha hta
  refine ⟨l', ?_, h2⟩
  simpa [addTimerAfter, htp, hnext] using h1

/-- `add_timer` on a fresh timer is insertion in front of the first later one. -/
theorem addTimer_spec (hb : ∀ p, back p p) (h : Holds back l xs) (ha : a ∉ xs) (hca : a < l.cells)
    (hta : l.heap a = some t) (hp : t.prev = none) (hn : t.next = none) :
    ∃ l', l.addTimer (some a) = some l' ∧ l'.cells = l.cells ∧ SameData l.heap l'.heap ∧
      Holds back l' (insertBy (expireAt l.heap) a xs) := by
  have hnd : (insertBy (expireAt l.heap) a xs).Nodup :=
    (insertBy_perm _ a xs).nodup_iff.mpr (List.nodup_cons.mpr ⟨ha, h.nodup⟩)
  have hbound : ∀ x ∈ insertBy (expireAt l.heap) a xs, x < l.cells := by
    intro x hx
    rcases mem_insertBy.mp hx with rfl | hx
    · exact hca
    · exact h.bound x hx
  cases xs with
  | nil =>
    have hhead : l.head = none := h.head_eq
    refine ⟨{ l with head := some a, tail := some a }, by simp [addTimer, hhead], rfl, .refl _, ?_⟩
    refine ⟨⟨rfl, t, hta, ?_, ?_⟩, hnd, hbound, fun _ => rfl⟩
    · simpa [hp] using hb none
    · simp [hn]
  | cons b ys =>
    have hhead : l.head = some b := h.head_eq
    obtain ⟨-, tb, htb, hbb, hrest⟩ := h.seg
    have hab : a ≠ b := by rintro rfl; simp at ha
    have hbys : b ∉ ys := (List.nodup_cons.mp h.nodup).1
    rw [insertBy_cons, expireAt_of_some hta, expireAt_of_some htb] at hnd hbound ⊢
    by_cases hlt : t.expire < tb.expire
    · rw [if_pos hlt] at hnd hbound ⊢
      refine ⟨{ l with
          head := some a
          heap := Function.update (Function.update l.heap a (some { t with next := some b })) b
            (some { tb with prev := some a }) }, ?_, rfl, ?_, ?_⟩
      · simp [addTimer, hhead, hta, htb, hlt, setNext, setPrev, write, Function.update_of_ne hab.symm]
      · refine .update (.update (.refl _) hta ?_) htb ?_ <;> rfl
      · refine ⟨⟨rfl, { t with next := some b }, by simp [Function.update_of_ne hab], ?_, rfl,
          { tb with prev := some a }, by simp, hb _, ?_⟩, hnd, hbound, fun _ => by simpa using h.tail⟩
        · simpa [hp] using hb none
        · refine hrest.congr fun c hc => ?_
          have hca : c ≠ a := by rintro rfl; simp [hc] at ha
          have hcb : c ≠ b := by rintro rfl; exact hbys hc
          simp [Function.update_of_ne hca, Function.update_of_ne hcb]
    · -- the number of cells is fuel enough for the private `add_timer`
      rw [if_neg hlt] at hnd hbound ⊢
      have hlen := h.length_le
      obtain ⟨l', h1, h2, h3, h4, h5, h6⟩ := addTimerAfter_spec hb (hhead ▸ h.seg) h.nodup
        (by simp at hlen; omega) ha hta
      refine ⟨l', ?_, h3, h4, ⟨h2 ▸ hhead ▸ h5, hnd, h3 ▸ hbound, fun _ => h6 (h.tail (by simp))⟩⟩
      simp [addTimer, hhead, hta, htb, hlt, h1]

/-- The same for a timer that was just created. -/
theorem Holds.addNew (hb : ∀ p, back p p) (h : Holds back l xs) (ha : l.heap a = none)
    (expire userData : ℤ) :
    ∃ l', (l.alloc a expire userData).addTimer (some a) = some l' ∧ a ∉ xs ∧
      SameData (l.alloc a expire userData).heap l'.heap ∧
      Holds back l' (insertBy (expireAt l'.heap) a xs) := by
  have hax : a ∉ xs := by
    intro hx
    obtain ⟨t, ht⟩ := h.seg.mem hx
    simp [ha] at ht
  have hl : Holds back (l.alloc a expire userData) xs := by
    refine ⟨h.seg.congr fun x hx => ?_, h.nodup, fun x hx => ?_, h.tail⟩
    · exact Function.update_of_ne (by rintro rfl; exact hax hx) _ _
    · exact (h.bound x hx).trans_le (le_max_left _ _)
  have hta : (l.alloc a expire userData).heap a = some ⟨expire, userData, none, none⟩ :=
    Function.update_self _ _ _
  obtain ⟨l', h1, -, h3, h4⟩ := addTimer_spec hb hl hax (show a < max l.cells (a + 1) by omega) hta rfl rfl
  exact ⟨l', h1, hax, h3, h3.expireAt_eq ▸ h4⟩

/-! ### `adjust_timer` -/

theorem adjustTimer_stays (hta : l.heap a = some t)
    (hstay : t.next = none ∨ ∃ b u, t.next = some b ∧ l.heap b = some u ∧ t.expire < u.expire) :
    l.adjustTimer (some a) = some l := by
  rcases hstay with hn | ⟨b, u, hn, hu, hlt⟩
  · simp [adjustTimer, hta, hn]
  · simp [adjustTimer, hta, hn, hu, hlt]

/-- When it moves anything, `adjust_timer` moves the head of the list, whichever
timer it was called with, and puts it somewhere behind the second one. -/
theorem adjustTimer_moves (hb : ∀ p, back p p) {c d : ℕ} (ys : List ℕ) (h : Holds back l (c :: d :: ys))
    (hta : l.heap a = some t) (hn : t.next = some b) (hu : l.heap b = some u)
    (hge : ¬ t.expire < u.expire) :
    ∃ l', l.adjustTimer (some a) = some l' ∧ l'.cells = l.cells ∧ SameData l.heap l'.heap ∧
      Holds back l' (d :: insertBy (expireAt l.heap) c ys) := by
  have hhead : l.head = some c := h.head_eq
  obtain ⟨-, tc, htc, -, htcn, td, htd, -, hrest⟩ := h.seg
  simp only [links_next] at htcn hrest
  obtain ⟨hcn, hnd⟩ := List.nodup_cons.mp h.nodup
  have hdn : d ∉ ys := (List.nodup_cons.mp hnd).1
  have hcd : c ≠ d := by rintro rfl; simp at hcn
  have hlen := h.length_le
  -- the state in which the head has been taken out
  let l1 : SortTimerLst := { l with
    head := some d
    heap := Function.update (Function.update l.heap d (some { td with prev := none })) c
      (some { tc with next := none }) }
  have hd1 : SameData l.heap l1.heap := by
    refine .update (.update (.refl _) htd ?_) htc ?_ <;> rfl
  have hs1 : (links back).Seg l1.heap none l1.head (d :: ys) none := by
    refine ⟨rfl, { td with prev := none }, by simp [l1, Function.update_of_ne hcd.symm], hb _,
      hrest.congr fun x hx => ?_⟩
    have hxc : x ≠ c := by rintro rfl; simp [hx] at hcn
    have hxd : x ≠ d := by rintro rfl; exact hdn hx
    simp [l1, Function.update_of_ne hxc, Function.update_of_ne hxd]
  obtain ⟨l', h1, h2, h3, h4, h5, h6⟩ := addTimerAfter_spec (l := l1) (a := c)
    (t := { tc with next := none }) hb hs1 hnd (by simp at hlen; simp [l1]; omega) hcn
    (by simp [l1])
  rw [hd1.expireAt_eq] at h5 h6
  have hp := insertBy_perm (expireAt l.heap) c ys
  refine ⟨l', ?_, h3, hd1.trans h4, ⟨h2 ▸ h5, ?_, ?_, fun _ => h6 (h.tail (by simp))⟩⟩
  · simp only [adjustTimer, hta, hn, hu, hhead, htc, htcn, htd, setPrev, setNext, write, deref_some,
      Option.bind_eq_bind, Option.bind_some, Function.update_of_ne hcd]
    simpa [hge] using h1
  · rw [List.nodup_cons, mem_insertBy, hp.nodup_iff, List.nodup_cons]
    exact ⟨by rintro (rfl | hx); exacts [hcd rfl, hdn hx],
      fun hx => hcn (by simp [hx]), (List.nodup_cons.mp hnd).2⟩
  · intro x hx
    refine h3 ▸ h.bound x ?_
    rcases List.mem_cons.mp hx with rfl | hx
    · simp
    · rcases mem_insertBy.mp hx with rfl | hx <;> simp [*]

/-- A timer with a successor sits in front of it in the list. -/
theorem Holds.split (h : Holds back l xs) (ha : a ∈ xs) (hta : l.heap a = some t) :
    ∃ pre post, xs = pre ++ a :: post ∧ t.next = firstPtr none post := by
  obtain ⟨pre, post, rfl⟩ := List.append_of_mem ha
  obtain ⟨r, -, -, t1, ht1, -, hrest⟩ := seg_append.mp h.seg
  obtain rfl : t = t1 := Option.some.inj (hta.symm.trans ht1)
  exact ⟨pre, post, rfl, hrest.first⟩

/-- `adjust_timer` on a linked timer: either nothing moves, or the head does. -/
theorem adjustTimer_spec (hb : ∀ p, back p p) (h : Holds back l xs) (ha : a ∈ xs) :
    ∃ l' ys, l.adjustTimer (some a) = some l' ∧ l'.cells = l.cells ∧ SameData l.heap l'.heap ∧
      Holds back l' ys ∧ ys.Perm xs := by
  obtain ⟨t, hta⟩ := h.seg.mem ha
  obtain ⟨pre, post, hxs, hn⟩ := h.split ha hta
  cases post with
  | nil => exact ⟨l, xs, adjustTimer_stays hta (.inl hn), rfl, .refl _, h, .refl _⟩
  | cons b post =>
    obtain ⟨u, hu⟩ := h.seg.mem (a := b) (by simp [hxs])
    by_cases hlt : t.expire < u.expire
    · exact ⟨l, xs, adjustTimer_stays hta (.inr ⟨b, u, hn, hu, hlt⟩), rfl, .refl _, h, .refl _⟩
    · -- `a` has a successor, so there are two timers at least
      obtain ⟨c, d, ys, rfl⟩ : ∃ c d ys, xs = c :: d :: ys := by
        cases pre with
        | nil => exact ⟨a, b, post, hxs⟩
        | cons c pre =>
          cases pre with
          | nil => exact ⟨c, a, b :: post, hxs⟩
          | cons d pre => exact ⟨c, d, pre ++ a :: b :: post, hxs⟩
      obtain ⟨l', h1, h2, h3, h4⟩ := adjustTimer_moves hb _ h hta hn hu hlt
      refine ⟨l', _, h1, h2, h3, h4, ?_⟩
      exact ((insertBy_perm _ c ys).cons d).trans (.swap c d ys)

/-! ### `del_timer` -/

/-- A timer freed behind the back of the list costs nothing. -/
theorem Holds.free (h : Holds back l xs) (ha : a ∉ xs) :
    Holds back { l with heap := Function.update l.heap a none } xs :=
  ⟨h.seg.congr fun x hx => Function.update_of_ne (by rintro rfl; exact ha hx) _ _,
    h.nodup, h.bound, h.tail⟩

theorem delTimer_only (h : Holds back l [a]) :
    ∃ l', l.delTimer (some a) = some l' ∧ l'.cells = l.cells ∧
      SameData (Function.update l.heap a none) l'.heap ∧ Holds back l' [] ∧ l'.tail = none := by
  obtain ⟨t, ht⟩ := h.seg.mem (a := a) (by simp)
  have hhead : l.head = some a := h.head_eq
  have htail : l.tail = some a := h.tail (by simp)
  refine ⟨{ l with heap := Function.update l.heap a none, head := none, tail := none },
    by simp [delTimer, hhead, htail, free_of_some ht], rfl, .refl _,
    ⟨rfl, by simp, by simp, by simp⟩, rfl⟩

/-- Deleting the head writes `prev` of the third timer instead of the second. -/
theorem delTimer_of_head (h : Holds back l (a :: b :: ys)) (htb : l.heap b = some u) :
    l.delTimer (some a) = (do
      let l ← ({ l with head := some b } : SortTimerLst).setPrev u.next none
      l.free a) := by
  have hhead : l.head = some a := h.head_eq
  have htail : l.tail = lastPtr (some a) (b :: ys) := h.tail (by simp)
  have hnt : l.tail ≠ some a := by
    obtain ⟨d, hd, hl⟩ := lastPtr_cons_mem (some a) b ys
    rw [htail, hl]
    rintro ⟨⟩
    exact (List.nodup_cons.mp h.nodup).1 hd
  obtain ⟨-, t, ht, -, hbn, -⟩ := h.seg
  simp only [links_next] at hbn
  simp [delTimer, hhead, hnt, ht, hbn, deref, htb]

/-- It crashes when there is no third timer. -/
theorem delTimer_head (h : Holds weakBack l (a :: xs)) (hxs : xs ≠ [])
    (hdel : l.delTimer (some a) = some l') :
    l'.cells = l.cells ∧ SameData (Function.update l.heap a none) l'.heap ∧
      Holds weakBack l' xs := by
  have htail : l.tail = lastPtr (some a) xs := h.tail (by simp)
  obtain ⟨ham, hnd⟩ := List.nodup_cons.mp h.nodup
  obtain ⟨b, ys, rfl⟩ := List.exists_cons_of_ne_nil hxs
  obtain ⟨tb, htb⟩ := h.seg.mem (a := b) (by simp)
  rw [delTimer_of_head h htb] at hdel
  obtain ⟨-, t, ht, -, hbn, tb1, htb1, -, hrest⟩ := h.seg
  obtain rfl : tb = tb1 := Option.some.inj (htb.symm.trans htb1)
  simp only [links_next] at hbn hrest
  obtain ⟨hbm, hnd'⟩ := List.nodup_cons.mp hnd
  have hba : b ≠ a := by rintro rfl; simp at ham
  cases ys with
  | nil =>
    -- the new head has no successor, and `prev` of `NULL` is written
    simp only [seg_nil] at hrest
    simp [hrest, setPrev, write] at hdel
  | cons c ys =>
    obtain ⟨hcn, tc, htc, -, hrest⟩ := hrest
    simp only [links_next] at hcn hrest
    have hca : c ≠ a := by rintro rfl; simp at ham
    have hcb : c ≠ b := by rintro rfl; simp at hbm
    simp only [hcn, setPrev, write, free, Option.bind_eq_bind, Option.bind_some, htc,
      Function.update_of_ne hca.symm, ht] at hdel
    obtain rfl := Option.some.inj hdel
    -- the `prev` of `b` still leads to the freed head, which `weakBack` leaves open
    refine ⟨rfl, ?_, ⟨⟨rfl, tb, ?_, ?_, hcn, { tc with prev := none }, ?_, ?_, ?_⟩, hnd,
      fun x hx => h.bound x (by simp [hx]), fun _ => by simpa using htail⟩⟩
    · apply SameData.free
      exact .update (.refl _) htc rfl
    · simp [Function.update_of_ne hba, Function.update_of_ne hcb.symm, htb]
    · exact fun p hp => by cases hp
    · simp [Function.update_of_ne hca]
    · exact fun p _ => .inr rfl
    · refine hrest.congr fun x hx => ?_
      have hxa : x ≠ a := by rintro rfl; simp [hx] at ham
      have hxc : x ≠ c := by rintro rfl; exact (List.nodup_cons.mp hnd').1 hx
      simp [Function.update_of_ne hxa, Function.update_of_ne hxc]

/-- A timer that is not the head is taken out properly, as long as its own `prev` is right. -/
theorem delTimer_behind (hb : ∀ p, back p p) (h : Holds back l (xs ++ p :: a :: ys))
    (hta : l.heap a = some t) (hprev : t.prev = some p) :
    ∃ l', l.delTimer (some a) = some l' ∧ l'.cells = l.cells ∧
      SameData (Function.update l.heap a none) l'.heap ∧ Holds back l' (xs ++ p :: ys) := by
  obtain ⟨r, h1, hr, tp, htp, hbp, hpn, t1, ht1, hba, hrest⟩ := seg_append.mp h.seg
  obtain rfl : t = t1 := Option.some.inj (hta.symm.trans ht1)
  obtain ⟨hndx, hndp, hdis⟩ := List.nodup_append.mp h.nodup
  obtain ⟨hpm, hnda⟩ := List.nodup_cons.mp hndp
  obtain ⟨ham, hndy⟩ := List.nodup_cons.mp hnda
  have hpa : p ≠ a := by rintro rfl; simp at hpm
  have hnd' : (xs ++ p :: ys).Nodup := h.nodup.sublist (by simp)
  have hbound' : ∀ x ∈ xs ++ p :: ys, x < l.cells := fun x hx => h.bound x (by
    rcases List.mem_append.mp hx with hx | hx
    · simp [hx]
    · rcases List.mem_cons.mp hx with rfl | hx <;> simp [*])
  have hh : l.head ≠ some a := by
    rw [h.head_eq]
    cases xs with
    | nil => simpa using hpa
    | cons x xs =>
      rintro ⟨⟩
      exact hdis a (by simp) a (by simp) rfl
  have htail := h.tail (by simp)
  cases ys with
  | nil =>
    have htl : l.tail = some a := by simpa using htail
    refine ⟨{ l with
        tail := some p
        heap := Function.update (Function.update l.heap p (some { tp with next := none })) a none },
      ?_, rfl, ?_, ⟨?_, hnd', hbound', fun _ => by simp⟩⟩
    · simp [delTimer, hh, htl, hta, hprev, setNext, write, htp, free, Function.update_of_ne hpa.symm]
    · apply SameData.free
      exact .update (.refl _) htp rfl
    · refine h.seg.removeAfter { tp with next := none } h.nodup ?_ htp ?_ rfl rfl ?_
      · intro c hca hcp _
        simp [Function.update_of_ne hca, Function.update_of_ne hcp]
      · simp [Function.update_of_ne hpa]
      · simp
  | cons c zs =>
    obtain ⟨hcn, tc, htc, hbc, -⟩ := hrest
    simp only [links_next] at hcn
    have hcp : c ≠ p := by rintro rfl; simp at hpm
    have hca : c ≠ a := by rintro rfl; simp at ham
    have htl : l.tail ≠ some a := by
      obtain ⟨d, hd, hl⟩ := lastPtr_cons_mem (some a) c zs
      rw [htail, lastPtr_append, lastPtr_cons, lastPtr_cons, hl]
      rintro ⟨⟩
      exact ham hd
    refine ⟨{ l with
        heap := Function.update (Function.update (Function.update l.heap p
          (some { tp with next := some c })) c (some { tc with prev := some p })) a none },
      ?_, rfl, ?_, ⟨?_, hnd', hbound', fun _ => by simpa using htail⟩⟩
    · simp [delTimer, hh, htl, hta, hprev, hcn, setNext, setPrev, write, htp,
        Function.update_of_ne hcp, htc, free, Function.update_of_ne hpa.symm,
        Function.update_of_ne hca.symm]
    · apply SameData.free
      exact .update (.update (.refl _) htp rfl) htc rfl
    · refine h.seg.removeAfter { tp with next := some c } h.nodup ?_ htp ?_ rfl rfl ?_
      · intro x hxa hxp hxc
        have hxc : x ≠ c := by rintro rfl; simp at hxc
        simp [Function.update_of_ne hxa, Function.update_of_ne hxp, Function.update_of_ne hxc]
      · simp [Function.update_of_ne hpa, Function.update_of_ne hcp.symm]
      · intro x v hx hv
        obtain rfl : c = x := by simpa using hx
        obtain rfl : tc = v := Option.some.inj (htc.symm.trans hv)
        exact ⟨{ tc with prev := some p }, by simp [Function.update_of_ne hca], rfl, hb _⟩

/-- With `prev` cleared, the deletion of a timer that is not the head crashes. -/
theorem delTimer_crash (hh : l.head ≠ some a) (hta : l.heap a = some t) (hprev : t.prev = none) :
    l.delTimer (some a) = none := by
  by_cases htl : l.tail = some a <;> simp [delTimer, hh, htl, hta, hprev, setNext, write]

/-- Unless it crashes, `del_timer` takes its target out of the forward chain.  The
back pointers are only kept up to the ones cleared when a head is deleted. -/
theorem delTimer_spec (h : Holds weakBack l xs) (ha : a ∈ xs)
    (hdel : l.delTimer (some a) = some l') :
    l'.cells = l.cells ∧ SameData (Function.update l.heap a none) l'.heap ∧
      Holds weakBack l' (xs.erase a) := by
  obtain ⟨t, hta⟩ := h.seg.mem ha
  obtain ⟨pre, post, rfl, -⟩ := h.split ha hta
  rcases List.eq_nil_or_concat pre with rfl | ⟨qs, p, rfl⟩
  · simp only [List.nil_append, List.erase_cons_head] at h ⊢
    by_cases hpost : post = []
    · subst hpost
      obtain ⟨l'', h1, h2, h3, h4, -⟩ := delTimer_only h
      obtain rfl := Option.some.inj (hdel.symm.trans h1)
      exact ⟨h2, h3, h4⟩
    · exact delTimer_head h hpost hdel
  · simp only [List.concat_eq_append, List.append_assoc, List.cons_append, List.nil_append] at h ⊢
    obtain ⟨r, -, -, tp, -, -, -, t1, ht1, hba, -⟩ := seg_append.mp h.seg
    obtain rfl : t = t1 := Option.some.inj (hta.symm.trans ht1)
    obtain ⟨-, hndp, hdis⟩ := List.nodup_append.mp h.nodup
    have haq : a ∉ qs := fun hq => hdis a hq a (by simp) rfl
    have hap : p ≠ a := by rintro rfl; exact (List.nodup_cons.mp hndp).1 (by simp)
    have herase : (qs ++ p :: a :: post).erase a = qs ++ p :: post := by
      rw [List.erase_append_right _ haq, List.erase_cons_tail (by simpa using hap),
        List.erase_cons_head]
    rw [herase]
    -- its `prev` is right, or was cleared when a head was deleted
    rcases hba p rfl with hprev | hprev
    · obtain ⟨l'', h1, h2⟩ := delTimer_behind weakBack_self h hta hprev
      obtain rfl := Option.some.inj (hdel.symm.trans h1)
      exact h2
    · have hh : l.head ≠ some a := by
        rw [h.head_eq]
        cases qs with
        | nil => simpa using hap
        | cons x qs => rintro ⟨⟩; simp at haq
      rw [delTimer_crash hh hta hprev] at hdel
      cases hdel

/-! ### `tick` -/

variable {ω : Type} {cb : ℕ → ℤ → ω → ω} {cur : ℤ} {w : ω} {e ud : ℕ → ℤ}

theorem dropFired_spec (hb : back none none)
    (hs : (links back).Seg l.heap none l.head (a :: xs) none) (hnd : (a :: xs).Nodup)
    (ht : l.heap a = some t) :
    ∃ l', l.dropFired a t = some l' ∧ (links back).Seg l'.heap none l'.head xs none ∧
      l'.tail = l.tail ∧ l'.cells = l.cells ∧
      ∀ x, (l'.heap x).map data = if x = a then none else (l.heap x).map data := by
  obtain ⟨-, t1, ht1, -, hrest⟩ := hs
  obtain rfl : t = t1 := Option.some.inj (ht.symm.trans ht1)
  simp only [links_next] at hrest
  obtain ⟨ham, hnd⟩ := List.nodup_cons.mp hnd
  cases xs with
  | nil =>
    have hn : t.next = none := hrest
    refine ⟨{ l with head := none, heap := Function.update l.heap a none },
      by simp [dropFired, hn, free, ht], rfl, rfl, rfl, fun x => ?_⟩
    simp only [Function.update_apply]
    split_ifs <;> simp
  | cons b ys =>
    obtain ⟨hn, tb, htb, -, hrest⟩ := hrest
    have hba : b ≠ a := by rintro rfl; simp at ham
    refine ⟨{ l with
        head := some b
        heap := Function.update (Function.update l.heap b (some { tb with prev := none })) a none },
      ?_, ⟨rfl, { tb with prev := none }, ?_, hb, ?_⟩, rfl, rfl, fun x => ?_⟩
    · simp [dropFired, hn, setPrev, write, htb, free, Function.update_of_ne hba.symm, ht]
    · simp [Function.update_of_ne hba]
    · refine hrest.congr fun x hx => ?_
      have hxa : x ≠ a := by rintro rfl; simp [hx] at ham
      have hxb : x ≠ b := by rintro rfl; exact (List.nodup_cons.mp hnd).1 hx
      simp [Function.update_of_ne hxa, Function.update_of_ne hxb]
    · simp only [Function.update_apply]
      split_ifs <;> simp_all [data]

/-- The loop fires and frees the timers up to the first one that is not due. -/
theorem tickLoop_spec (cb : ℕ → ℤ → ω → ω) (cur : ℤ) (hb : back none none) (hlen : xs.length < n)
    (hs : (links back).Seg l.heap none l.head xs none) (hnd : xs.Nodup)
    (hdat : ∀ a ∈ xs, (l.heap a).map data = some (e a, ud a)) :
    ∃ l', tickLoop cb cur n l l.head w =
        some (l', (xs.takeWhile (e · ≤ cur)).foldl (fun w a => cb a (ud a) w) w) ∧
      (links back).Seg l'.heap none l'.head (xs.dropWhile (e · ≤ cur)) none ∧
      l'.tail = l.tail ∧ l'.cells = l.cells ∧
      ∀ x, (l'.heap x).map data =
        if x ∈ xs.takeWhile (e · ≤ cur) then none else (l.heap x).map data := by
  induction xs generalizing l w n with
  | nil =>
    obtain ⟨n, rfl⟩ : ∃ m, n = m + 1 := ⟨n - 1, by simp at hlen; omega⟩
    have hh : l.head = none := hs
    exact ⟨l, by simp [hh, tickLoop], hs, rfl, rfl, by simp⟩
  | cons a xs ih =>
    obtain ⟨n, rfl⟩ : ∃ m, n = m + 1 := ⟨n - 1, by simp at hlen; omega⟩
    have hh : l.head = some a := hs.first
    obtain ⟨t, ht⟩ := hs.mem (a := a) (by simp)
    have ham := (List.nodup_cons.mp hnd).1
    obtain ⟨het, hut⟩ : t.expire = e a ∧ t.userData = ud a := by
      simpa [ht, data] using hdat a (by simp)
    by_cases hlt : cur < t.expire
    · have hda : ¬ e a ≤ cur := by omega
      refine ⟨l, ?_, ?_, rfl, rfl, by simp [hda]⟩
      · simp [hh, tickLoop, ht, hlt, hda]
      · rwa [List.dropWhile_cons_of_neg (by simpa using hda)]
    · -- one round of the loop, then the induction hypothesis for what is left
      have hda : e a ≤ cur := by omega
      obtain ⟨l1, hl1, hs1, htl1, hc1, hd1⟩ := dropFired_spec hb hs hnd ht
      obtain ⟨l', h1, h2, h3, h4, h5⟩ := ih (l := l1) (w := cb a (ud a) w) (n := n)
        (by simp at hlen; omega) hs1 (List.nodup_cons.mp hnd).2 (fun x hx => by
          have hxa : x ≠ a := by rintro rfl; exact ham hx
          rw [hd1, if_neg hxa]
          exact hdat x (by simp [hx]))
      refine ⟨l', ?_, ?_, h3.trans htl1, h4.trans hc1, fun x => ?_⟩
      · rw [List.takeWhile_cons_of_pos (by simpa using hda), List.foldl_cons, ← h1, ← hut]
        simp [hh, tickLoop, ht, hlt, hl1]
      · rwa [List.dropWhile_cons_of_pos (by simpa using hda)]
      · rw [h5, hd1, List.takeWhile_cons_of_pos (by simpa using hda)]
        simp only [List.mem_cons]
        split_ifs <;> simp_all

/-- `tick` fires, in list order, the timers up to the first one that is not due, and
leaves the others. -/
theorem tick_spec (cb : ℕ → ℤ → ω → ω) (cur : ℤ) (e ud : ℕ → ℤ) (hb : back none none) (h : Holds back l xs)
    (hdat : ∀ a ∈ xs, (l.heap a).map data = some (e a, ud a)) :
    ∃ l', l.tick cb cur w =
        some (l', (xs.takeWhile (e · ≤ cur)).foldl (fun w a => cb a (ud a) w) w) ∧
      Holds back l' (xs.dropWhile (e · ≤ cur)) ∧ l'.tail = l.tail ∧ l'.cells = l.cells ∧
      ∀ x, (l'.heap x).map data =
        if x ∈ xs.takeWhile (e · ≤ cur) then none else (l.heap x).map data := by
  obtain ⟨l', h1, h2, h3, h4, h5⟩ := tickLoop_spec cb cur (w := w) (n := l.cells + 1) hb
    (Nat.lt_succ_of_le h.length_le) h.seg h.nodup hdat
  have hsub : (xs.dropWhile (e · ≤ cur)).Sublist xs := List.dropWhile_sublist _
  refine ⟨l', ?_, ⟨h2, h.nodup.sublist hsub, fun a ha => h4 ▸ h.bound a (hsub.subset ha), ?_⟩, h3, h4, h5⟩
  · cases xs with
    | nil =>
      have hh : l.head = none := h.head_eq
      simpa [tick, hh, tickLoop] using h1
    | cons b ys =>
      have hh : l.head = some b := h.head_eq
      rw [tick, if_neg (by simp [hh]), h1]
  · intro hne
    have hsplit := List.takeWhile_append_dropWhile (p := fun a => decide (e a ≤ cur)) (l := xs)
    rw [h3, h.tail (by rintro rfl; simp at hne), ← hsplit, lastPtr_append, hsplit]
    obtain ⟨b, ys, hys⟩ := List.exists_cons_of_ne_nil hne
    rw [hys, lastPtr_cons, lastPtr_cons]

end SortTimerLst

end LinuxServer.TimerList
