import LinuxServer.LinkedHeap
import Mathlib.Data.Int.Order.Basic
import Mathlib.Data.List.Sort

/-!
# The ascending timer list of `11-2_LIST_TIMER.h`

Timers are cells of a heap, `NULL` is `none`, and a dereference of `NULL` or of a
freed timer makes the whole operation `none`.  The loops walk the list, so their
fuel is the number of addresses handed out so far.  The `while` loops and the four
cases of `del_timer` are written in the order of the source, pointer write by
pointer write.
-/

namespace LinuxServer.TimerList

/-- `class util_timer`.  `userData` is the index of the `client_data` it points to;
all timers of a program share one `cb_func`, which is a parameter of `tick`. -/
structure UtilTimer where
  expire : ℤ
  userData : ℤ
  prev : Option ℕ
  next : Option ℕ
  deriving DecidableEq, Repr

/-- `class sort_timer_lst`, with the memory its timers live in.  Every address
handed out so far is below `cells`. -/
structure SortTimerLst where
  head : Option ℕ
  tail : Option ℕ
  heap : ℕ → Option UtilTimer
  cells : ℕ

namespace SortTimerLst

/-- `sort_timer_lst()`. -/
def empty : SortTimerLst where
  head := none
  tail := none
  heap _ := none
  cells := 0

def deref (l : SortTimerLst) (p : Option ℕ) : Option UtilTimer := p.bind l.heap

/-- A write through the pointer `p`. -/
def write (l : SortTimerLst) (p : Option ℕ) (f : UtilTimer → UtilTimer) :
    Option SortTimerLst := do
  let a ← p
  let t ← l.heap a
  some { l with heap := Function.update l.heap a (some (f t)) }

def setNext (l : SortTimerLst) (p q : Option ℕ) : Option SortTimerLst :=
  l.write p fun t => { t with next := q }

def setPrev (l : SortTimerLst) (p q : Option ℕ) : Option SortTimerLst :=
  l.write p fun t => { t with prev := q }

/-- `delete timer`. -/
def free (l : SortTimerLst) (a : ℕ) : Option SortTimerLst := do
  let _ ← l.heap a
  some { l with heap := Function.update l.heap a none }

/-- `new util_timer` at the address `a`, with the fields its creator then fills in. -/
def alloc (l : SortTimerLst) (a : ℕ) (expire userData : ℤ) : SortTimerLst :=
  { l with
    heap := Function.update l.heap a (some ⟨expire, userData, none, none⟩)
    cells := max l.cells (a + 1) }

/-- The loop of the private `add_timer` and the test after it. -/
def insertLoop : ℕ → SortTimerLst → Option ℕ → Option ℕ → Option ℕ → Option SortTimerLst
  | 0, _, _, _, _ => none
  | _ + 1, l, timer, prev, none => do
    let l ← l.setNext prev timer
    let l ← l.setPrev timer prev
    let l ← l.setNext timer none
    some { l with tail := timer }
  | n + 1, l, timer, prev, some b => do
    let t ← l.deref timer
    let u ← l.deref (some b)
    if t.expire < u.expire then
      let l ← l.setNext prev timer
      let l ← l.setNext timer (some b)
      let l ← l.setPrev (some b) timer
      l.setPrev timer prev
    else
      insertLoop n l timer (some b) u.next

/-- The private `add_timer(timer, lst_head)`. -/
def addTimerAfter (l : SortTimerLst) (timer lstHead : Option ℕ) : Option SortTimerLst := do
  let t ← l.deref lstHead
  insertLoop (l.cells + 1) l timer lstHead t.next

/-- `add_timer(timer)`. -/
def addTimer (l : SortTimerLst) (timer : Option ℕ) : Option SortTimerLst :=
  if timer = none then some l
  else if l.head = none then some { l with head := timer, tail := timer }
  else do
    let t ← l.deref timer
    let u ← l.deref l.head
    if t.expire < u.expire then
      let l ← l.setNext timer l.head
      let l ← l.setPrev l.head timer
      some { l with head := timer }
    else
      l.addTimerAfter timer l.head

/-- `adjust_timer(timer)`.  The second test of the source is the assignment
`timer = head`, so from there on `timer` is the head of the list. -/
def adjustTimer (l : SortTimerLst) (timer : Option ℕ) : Option SortTimerLst :=
  if timer = none then some l
  else do
    let t ← l.deref timer
    let stays ← match t.next with
      | none => some true
      | some b => do
        let u ← l.deref (some b)
        some (decide (t.expire < u.expire))
    if stays then some l
    else
      let timer := l.head
      if timer ≠ none then
        let h ← l.deref l.head
        let l : SortTimerLst := { l with head := h.next }
        let l ← l.setPrev l.head none
        let l ← l.setNext timer none
        l.addTimerAfter timer l.head
      else
        let t ← l.deref timer
        let l ← l.setNext t.prev t.next
        let l ← l.setPrev t.next t.prev
        l.addTimerAfter timer t.next

/-- `del_timer(timer)`. -/
def delTimer (l : SortTimerLst) (timer : Option ℕ) : Option SortTimerLst :=
  match timer with
  | none => some l
  | some a =>
    if l.head = some a ∧ l.tail = some a then do
      let l ← l.free a
      some { l with head := none, tail := none }
    else if l.head = some a then do
      let h ← l.deref l.head
      let l : SortTimerLst := { l with head := h.next }
      let h ← l.deref l.head
      let l ← l.setPrev h.next none
      l.free a
    else if l.tail = some a then do
      let t ← l.deref l.tail
      let l ← l.setNext t.prev none
      let l : SortTimerLst := { l with tail := t.prev }
      l.free a
    else do
      let t ← l.deref (some a)
      let l ← l.setNext t.prev t.next
      let l ← l.setPrev t.next t.prev
      l.free a

variable {ω : Type}

/-- The end of a round of the loop in `tick`: `tmp` leaves the list and is freed. -/
def dropFired (l : SortTimerLst) (tmp : ℕ) (t : UtilTimer) : Option SortTimerLst := do
  let l : SortTimerLst := { l with head := t.next }
  let l ← if l.head ≠ none then l.setPrev l.head none else some l
  l.free tmp

/-- The loop of `tick`.  `cb` is the call `tmp->cb_func(tmp->user_data)`; it gets the
address `tmp` as well, so that a caller can tell which timer ran. -/
def tickLoop (cb : ℕ → ℤ → ω → ω) (cur : ℤ) :
    ℕ → SortTimerLst → Option ℕ → ω → Option (SortTimerLst × ω)
  | 0, _, _, _ => none
  | _ + 1, l, none, w => some (l, w)
  | n + 1, l, some a, w => do
    let t ← l.heap a
    if cur < t.expire then some (l, w)
    else
      let w := cb a t.userData w
      let l ← l.dropFired a t
      tickLoop cb cur n l l.head w

/-- `tick()`, `cur` being what `time(NULL)` returns. -/
def tick (cb : ℕ → ℤ → ω → ω) (cur : ℤ) (l : SortTimerLst) (w : ω) :
    Option (SortTimerLst × ω) :=
  if l.head = none then some (l, w)
  else tickLoop cb cur (l.cells + 1) l l.head w

end SortTimerLst

end LinuxServer.TimerList
