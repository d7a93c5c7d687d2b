import Mathlib.Data.List.Nodup
import Mathlib.Logic.Function.Basic

/-!
# Doubly linked lists in a heap

Cells live at natural-number addresses, `none` being an address that is not
allocated, and a pointer is an optional address.  `Seg` says that following the
forward pointers from `p` visits exactly the addresses `xs` and ends at `q`.  The
back pointers are only required to satisfy a relation with the true predecessor,
so that lists whose back pointers are partly wrong can be described too.
-/

namespace LinuxServer

/-- How cells are linked: their two pointers, and which stored back pointer is
acceptable for a given predecessor. -/
structure Linkage (ν : Type*) where
  next : ν → Option ℕ
  prev : ν → Option ℕ
  back : Option ℕ → Option ℕ → Prop

namespace Linkage

variable {ν : Type*} (L : Linkage ν)

/-- A write through a pointer, which may not be null nor dangling. -/
def write (h : ℕ → Option ν) (p : Option ℕ) (f : ν → ν) : Option (ℕ → Option ν) :=
  p.bind fun a => (h a).map fun t => Function.update h a (some (f t))

/-- The end of a cell's life. -/
def release (h : ℕ → Option ν) (a : ℕ) : Option (ℕ → Option ν) :=
  (h a).map fun _ => Function.update h a none

/-- The addresses met on the way from a pointer, up to `n` of them. -/
def chain (h : ℕ → Option ν) : ℕ → Option ℕ → List ℕ
  | 0, _ => []
  | _ + 1, none => []
  | n + 1, some a => a :: chain h n ((h a).bind L.next)

/-- The cells `xs`, in order, lead from `p` to `q`; `pr` precedes the first. -/
def Seg (h : ℕ → Option ν) : Option ℕ → Option ℕ → List ℕ → Option ℕ → Prop
  | _, p, [], q => p = q
  | pr, p, a :: xs, q =>
    p = some a ∧ ∃ t, h a = some t ∧ L.back (L.prev t) pr ∧ Seg h (some a) (L.next t) xs q

/-- The last of `xs`, or `pr` when there is none. -/
def lastPtr (pr : Option ℕ) : List ℕ → Option ℕ
  | [] => pr
  | a :: xs => lastPtr (some a) xs

/-- The first of `xs`, or `q` when there is none. -/
def firstPtr (q : Option ℕ) : List ℕ → Option ℕ
  | [] => q
  | a :: _ => some a

@[simp] theorem lastPtr_nil (pr : Option ℕ) : lastPtr pr [] = pr := rfl
@[simp] theorem lastPtr_cons (pr : Option ℕ) (a : ℕ) (xs : List ℕ) :
    lastPtr pr (a :: xs) = lastPtr (some a) xs := rfl
@[simp] theorem firstPtr_nil (q : Option ℕ) : firstPtr q [] = q := rfl
@[simp] theorem firstPtr_cons (q : Option ℕ) (a : ℕ) (xs : List ℕ) :
    firstPtr q (a :: xs) = some a := rfl

@[simp] theorem lastPtr_append (pr : Option ℕ) (xs ys : List ℕ) :
    lastPtr pr (xs ++ ys) = lastPtr (lastPtr pr xs) ys := by
  induction xs generalizing pr with
  | nil => rfl
  | cons a xs ih => simpa using ih (some a)

@[simp] theorem lastPtr_reverse (q : Option ℕ) (xs : List ℕ) :
    lastPtr q xs.reverse = firstPtr q xs := by
  cases xs with
  | nil => rfl
  | cons a xs => simp

theorem lastPtr_cons_mem (pr : Option ℕ) (a : ℕ) (xs : List ℕ) :
    ∃ b ∈ a :: xs, lastPtr pr (a :: xs) = some b := by
  induction xs generalizing pr a with
  | nil => exact ⟨a, by simp, rfl⟩
  | cons b xs ih =>
    obtain ⟨c, hc, h⟩ := ih (some a) b
    exact ⟨c, by simp [List.mem_cons.mp hc], by simpa using h⟩

variable {L} {h h' : ℕ → Option ν} {pr pr' p q : Option ℕ} {xs ys : List ℕ} {a b : ℕ}

@[simp] theorem seg_nil : L.Seg h pr p [] q ↔ p = q := Iff.rfl

@[simp] theorem seg_cons : L.Seg h pr p (a :: xs) q ↔
    p = some a ∧ ∃ t, h a = some t ∧ L.back (L.prev t) pr ∧
      L.Seg h (some a) (L.next t) xs q := Iff.rfl

theorem seg_append : L.Seg h pr p (xs ++ ys) q ↔
    ∃ r, L.Seg h pr p xs r ∧ L.Seg h (lastPtr pr xs) r ys q := by
  induction xs generalizing pr p with
  | nil => simp
  | cons a xs ih =>
    simp only [List.cons_append, seg_cons, ih, lastPtr_cons]
    constructor
    · rintro ⟨hp, t, ht, hb, r, h1, h2⟩
      exact ⟨r, ⟨hp, t, ht, hb, h1⟩, h2⟩
    · rintro ⟨r, ⟨hp, t, ht, hb, h1⟩, h2⟩
      exact ⟨hp, t, ht, hb, r, h1, h2⟩

theorem Seg.first (hs : L.Seg h pr p xs q) : p = firstPtr q xs := by
  cases xs with
  | nil => exact hs
  | cons => exact hs.1

theorem Seg.mem (hs : L.Seg h pr p xs q) (ha : a ∈ xs) : ∃ t, h a = some t := by
  induction xs generalizing pr p with
  | nil => simp at ha
  | cons b xs ih =>
    obtain ⟨-, t, ht, -, hrest⟩ := hs
    rcases List.mem_cons.mp ha with rfl | ha
    · exact ⟨t, ht⟩
    · exact ih hrest ha

/-- A list that is no longer than the walk is what the walk finds. -/
theorem Seg.chain_eq {n : ℕ} (hs : L.Seg h pr p xs none) (hn : xs.length ≤ n) : L.chain h n p = xs := by
  induction xs generalizing pr p n with
  | nil =>
    obtain rfl := hs
    cases n <;> rfl
  | cons a xs ih =>
    obtain ⟨rfl, t, ht, -, hrest⟩ := hs
    obtain ⟨n, rfl⟩ : ∃ m, n = m + 1 := ⟨n - 1, by simp at hn; omega⟩
    rw [chain, ht, Option.bind_some, ih hrest (by simpa using hn)]

/-- The walk follows the forward pointers only. -/
theorem chain_congr {L' : Linkage ν} (hn : L'.next = L.next) (n : ℕ) (p : Option ℕ) :
    L'.chain h n p = L.chain h n p := by
  induction n generalizing p with
  | zero => rfl
  | succ n ih =>
    cases p with
    | none => rfl
    | some a => rw [chain, chain, hn, ih]

/-- A list depends only on the links of its own cells. -/
theorem Seg.relabel (hs : L.Seg h pr p xs q)
    (heq : ∀ a t, a ∈ xs → h a = some t →
      ∃ t', h' a = some t' ∧ L.next t' = L.next t ∧ L.prev t' = L.prev t) : L.Seg h' pr p xs q := by
  induction xs generalizing pr p with
  | nil => exact hs
  | cons b xs ih =>
    obtain ⟨hp, t, ht, hb, hrest⟩ := hs
    obtain ⟨t', ht', hn, hpr⟩ := heq b t (by simp) ht
    refine ⟨hp, t', ht', hpr ▸ hb, ?_⟩
    rw [hn]
    apply ih hrest
    intro a u ha hu
    exact heq a u (by simp [ha]) hu

/-- A cell may be written as long as its links stay. -/
theorem Seg.write {t u : ν} (hs : L.Seg h pr p xs q) (ht : h a = some t) (hn : L.next u = L.next t)
    (hp : L.prev u = L.prev t) : L.Seg (Function.update h a (some u)) pr p xs q := by
  apply hs.relabel
  intro b v _ hv
  rcases eq_or_ne b a with rfl | hba
  · obtain rfl : t = v := Option.some.inj (ht.symm.trans hv)
    exact ⟨u, Function.update_self _ _ _, hn, hp⟩
  · exact ⟨v, by rwa [Function.update_of_ne hba], rfl, rfl⟩

theorem Seg.congr (hs : L.Seg h pr p xs q) (heq : ∀ a ∈ xs, h' a = h a) :
    L.Seg h' pr p xs q :=
  hs.relabel fun a t ha ht => ⟨t, (heq a ha).trans ht, rfl, rfl⟩

/-- A list gets another predecessor when its first cell is written to accept it. -/
theorem Seg.reenter (hs : L.Seg h pr p xs q) (hnd : xs.Nodup)
    (heq : ∀ c ∈ xs, xs.head? ≠ some c → h' c = h c)
    (hfirst : ∀ c v, xs.head? = some c → h c = some v →
      ∃ v', h' c = some v' ∧ L.next v' = L.next v ∧ L.back (L.prev v') pr') :
    L.Seg h' pr' p xs q := by
  cases xs with
  | nil => exact hs
  | cons c xs =>
    obtain ⟨hp, v, hv, -, hrest⟩ := hs
    obtain ⟨v', hv', hvn, hvp⟩ := hfirst c v rfl hv
    refine ⟨hp, v', hv', hvp, ?_⟩
    rw [hvn]
    apply hrest.congr
    intro d hd
    apply heq d (by simp [hd])
    rintro ⟨⟩
    exact (List.nodup_cons.mp hnd).1 hd

/-- Two descriptions of what lies behind one pointer agree. -/
theorem Seg.unique {L' : Linkage ν} (hn : L'.next = L.next) (hs : L.Seg h pr p xs none)
    (hs' : L'.Seg h pr' p ys none) : xs = ys := by
  induction xs generalizing pr pr' p ys with
  | nil =>
    obtain rfl := hs
    cases ys with
    | nil => rfl
    | cons b ys => cases hs'.1
  | cons a xs ih =>
    obtain ⟨rfl, t, ht, -, hrest⟩ := hs
    cases ys with
    | nil => cases hs'
    | cons b ys =>
      obtain ⟨hab, t', ht', -, hrest'⟩ := hs'
      cases hab
      obtain rfl : t = t' := Option.some.inj (ht.symm.trans ht')
      rw [hn] at hrest'
      rw [ih hrest hrest']

/-! ## The other way -/

/-- The cells linked the other way round. -/
def reverse (L : Linkage ν) : Linkage ν where
  next := L.prev
  prev := L.next
  back := Eq

/-- Where every back pointer is right, it leads through the list from its end. -/
theorem Seg.reverse (hb : ∀ x y, L.back x y → x = y) (hs : L.Seg h pr p xs q) :
    L.reverse.Seg h q (lastPtr pr xs) xs.reverse pr := by
  induction xs generalizing pr p with
  | nil => rfl
  | cons a xs ih =>
    obtain ⟨-, t, ht, hback, hrest⟩ := hs
    rw [List.reverse_cons, lastPtr_cons]
    apply seg_append.mpr
    refine ⟨some a, ih hrest, rfl, t, ht, ?_, hb _ _ hback⟩
    rw [lastPtr_reverse]
    exact hrest.first

/-! ## Splicing -/

/-- Linking a cell `a` in behind `p`: only `p`, `a` and the cell after them change. -/
theorem Seg.insertAfter {t u : ν} (t' : ν) (hs : L.Seg h pr p (xs ++ b :: ys) q)
    (hnd : (xs ++ b :: ys).Nodup) (ha : a ∉ xs ++ b :: ys)
    (heq : ∀ c, c ≠ a → c ≠ b → ys.head? ≠ some c → h' c = h c)
    (hb : h b = some t) (hb' : h' b = some t') (hbn : L.next t' = some a)
    (hbp : L.prev t' = L.prev t)
    (ha' : h' a = some u) (han : L.next u = firstPtr q ys) (hap : L.back (L.prev u) (some b))
    (hys : ∀ c v, ys.head? = some c → h c = some v →
      ∃ v', h' c = some v' ∧ L.next v' = L.next v ∧ L.back (L.prev v') (some a)) :
    L.Seg h' pr p (xs ++ b :: a :: ys) q := by
  obtain ⟨r, h1, hr, t0, ht0, hback, h2⟩ := seg_append.mp hs
  obtain rfl : t0 = t := Option.some.inj (ht0.symm.trans hb)
  obtain ⟨hndx, hndb, hdis⟩ := List.nodup_append.mp hnd
  have hbys : b ∉ ys := (List.nodup_cons.mp hndb).1
  -- in front of `b` nothing changes; the cells behind get a new predecessor
  refine seg_append.mpr ⟨r, h1.congr fun c hc => ?_, hr, t', hb', hbp ▸ hback, hbn, u, ha', hap, ?_⟩
  · refine heq c ?_ ?_ ?_
    · rintro rfl; exact ha (by simp [hc])
    · rintro rfl; exact hdis c hc c (by simp) rfl
    · intro hy
      exact hdis c hc c (by simp [List.mem_of_mem_head? (Option.mem_def.mpr hy)]) rfl
  · rw [han, ← h2.first]
    apply h2.reenter (List.nodup_cons.mp hndb).2 _ hys
    intro c hc
    apply heq c
    · rintro rfl; exact ha (by simp [hc])
    · rintro rfl; exact hbys hc

/-- Unlinking the cell `a` behind `b`: only `a`, `b` and the cell after them change. -/
theorem Seg.removeAfter {t : ν} (t' : ν) (hs : L.Seg h pr p (xs ++ b :: a :: ys) q)
    (hnd : (xs ++ b :: a :: ys).Nodup)
    (heq : ∀ c, c ≠ a → c ≠ b → ys.head? ≠ some c → h' c = h c)
    (hb : h b = some t) (hb' : h' b = some t') (hbn : L.next t' = firstPtr q ys)
    (hbp : L.prev t' = L.prev t)
    (hys : ∀ c v, ys.head? = some c → h c = some v →
      ∃ v', h' c = some v' ∧ L.next v' = L.next v ∧ L.back (L.prev v') (some b)) :
    L.Seg h' pr p (xs ++ b :: ys) q := by
  obtain ⟨r, h1, hr, t0, ht0, hback, hra, u, hu, -, h2⟩ := seg_append.mp hs
  obtain rfl : t0 = t := Option.some.inj (ht0.symm.trans hb)
  obtain ⟨hndx, hndb, hdis⟩ := List.nodup_append.mp hnd
  obtain ⟨hba, hnda⟩ := List.nodup_cons.mp hndb
  obtain ⟨hays, hndy⟩ := List.nodup_cons.mp hnda
  have hbys : b ∉ ys := fun hb => hba (by simp [hb])
  refine seg_append.mpr ⟨r, h1.congr fun c hc => ?_, hr, t', hb', hbp ▸ hback, ?_⟩
  · refine heq c ?_ ?_ ?_
    · rintro rfl; exact hdis c hc c (by simp) rfl
    · rintro rfl; exact hdis c hc c (by simp) rfl
    · intro hy
      exact hdis c hc c (by simp [List.mem_of_mem_head? (Option.mem_def.mpr hy)]) rfl
  · rw [hbn, ← h2.first]
    apply h2.reenter hndy _ hys
    intro c hc
    apply heq c
    · rintro rfl; exact hays hc
    · rintro rfl; exact hbys hc

/-- Release the cells on the way from a pointer, each as soon as the pointer behind it is known. -/
def releaseChain : ℕ → (ℕ → Option ν) → Option ℕ → Option (ℕ → Option ν)
  | 0, _, _ => none
  | _ + 1, h, none => some h
  | n + 1, h, some a => do
    let t ← h a
    let h ← release h a
    releaseChain n h (L.next t)

/-- The cells of a list are released, and nothing else. -/
theorem Seg.releaseChain_eq {n : ℕ} (hs : L.Seg h pr p xs none) (hnd : xs.Nodup) (hn : xs.length < n) :
    L.releaseChain n h p = some fun x => if x ∈ xs then none else h x := by
  induction xs generalizing h pr p n with
  | nil =>
    obtain rfl := hs
    obtain ⟨n, rfl⟩ : ∃ m, n = m + 1 := ⟨n - 1, by simp at hn; omega⟩
    simp [releaseChain]
  | cons a xs ih =>
    obtain ⟨rfl, t, ht, -, hrest⟩ := hs
    obtain ⟨n, rfl⟩ : ∃ m, n = m + 1 := ⟨n - 1, by simp at hn; omega⟩
    obtain ⟨ham, hnd⟩ := List.nodup_cons.mp hnd
    have hseg : L.Seg (Function.update h a none) (some a) (L.next t) xs none :=
      hrest.congr fun x hx => Function.update_of_ne (by rintro rfl; exact ham hx) _ _
    have hrun := ih hseg hnd (by simpa using hn)
    simp only [releaseChain, release, ht, Option.map_some, Option.bind_eq_bind, Option.bind_some, hrun]
    congr 1
    funext x
    rcases eq_or_ne x a with rfl | hx
    · simp
    · simp [hx]

end Linkage

end LinuxServer
