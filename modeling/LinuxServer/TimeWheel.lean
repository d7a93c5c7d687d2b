import LinuxServer.LinkedHeap
import Mathlib.Data.Int.Order.Basic

/-!
# The time wheel of `11-5_time_wheel.h`

Timers are cells of a heap, `NULL` is `none`.  A dereference of `NULL` or of a freed
timer and an index outside `slots` make the whole operation `none`.  The source of
`tick` names a variable `ts` that is not declared there; it is read as `cur_slot`.

`cb_func` and `user_data` are set by the caller of `add_timer` and used for the call in
`tick` only, so the callback is a function of the timer's address.
-/

namespace LinuxServer.Wheel
open Linkage

/-- `N`, the number of slots. -/
def slotCount : ℤ := 60
/-- `SI`, the time between two ticks. -/
def slotInterval : ℤ := 1

/-- `class tw_timer`. -/
structure TwTimer where
  rotation : ℤ
  timeSlot : ℤ
  next : Option ℕ
  prev : Option ℕ
  deriving DecidableEq, Repr

/-- `class time_wheel`, with the memory its timers live in.  Every address handed out
so far is below `cells`. -/
structure TimeWheel where
  slots : ℤ → Option ℕ
  curSlot : ℤ
  heap : ℕ → Option TwTimer
  cells : ℕ

/-- The indices of `slots`. -/
def IsSlot (i : ℤ) : Prop := 0 ≤ i ∧ i < slotCount

instance (i : ℤ) : Decidable (IsSlot i) := inferInstanceAs (Decidable (_ ∧ _))

namespace TimeWheel

/-- `time_wheel()`. -/
def new : TimeWheel where
  slots _ := none
  curSlot := 0
  heap _ := none
  cells := 0

/-- `slots[i]`. -/
def slot (w : TimeWheel) (i : ℤ) : Option (Option ℕ) := if IsSlot i then some (w.slots i) else none

/-- `slots[i] = p`. -/
def setSlot (w : TimeWheel) (i : ℤ) (p : Option ℕ) : Option TimeWheel :=
  if IsSlot i then some { w with slots := Function.update w.slots i p } else none

def setNext (w : TimeWheel) (p q : Option ℕ) : Option TimeWheel := do
  let h ← write w.heap p fun t => { t with next := q }
  some { w with heap := h }

def setPrev (w : TimeWheel) (p q : Option ℕ) : Option TimeWheel := do
  let h ← write w.heap p fun t => { t with prev := q }
  some { w with heap := h }

/-- `delete timer`. -/
def free (w : TimeWheel) (a : ℕ) : Option TimeWheel := do
  let h ← release w.heap a
  some { w with heap := h }

/-- `new tw_timer(rotation, ts)` at the address `a`. -/
def alloc (w : TimeWheel) (a : ℕ) (rotation ts : ℤ) : TimeWheel :=
  { w with
    heap := Function.update w.heap a (some ⟨rotation, ts, none, none⟩)
    cells := max w.cells (a + 1) }

/-- `add_timer(timeout)`, with the timer it returns; `new` puts it at the address `a`. -/
def addTimer (w : TimeWheel) (a : ℕ) (timeout : ℤ) : Option (TimeWheel × Option ℕ) :=
  if timeout < 0 then some (w, none)
  else do
    let ticks := if timeout < slotInterval then 1 else timeout / slotInterval
    let rotation := ticks / slotCount
    let ts := (w.curSlot + ticks % slotCount) % slotCount
    let timer := some a
    let w := w.alloc a rotation ts
    let head ← w.slot ts
    if head = none then
      let w ← w.setSlot ts timer
      some (w, timer)
    else
      let w ← w.setNext timer head
      let w ← w.setPrev head timer
      let w ← w.setSlot ts timer
      some (w, timer)

/-- The statements by which `del_timer` and `tick` take a timer that is not the head
of its slot out of the list. -/
def unlink (w : TimeWheel) (t : TwTimer) : Option TimeWheel := do
  let w ← w.setNext t.prev t.next
  if t.next ≠ none then w.setPrev t.next t.prev else some w

/-- `del_timer(timer)`. -/
def delTimer (w : TimeWheel) (timer : Option ℕ) : Option TimeWheel :=
  match timer with
  | none => some w
  | some a => do
    let t ← w.heap a
    let ts := t.timeSlot
    let head ← w.slot ts
    if head = some a then
      let w ← w.setSlot ts t.next
      let head ← w.slot ts
      let w ← if head ≠ none then w.setPrev head none else some w
      w.free a
    else
      let w ← w.unlink t
      w.free a

variable {ω : Type}

/-- The loop of `tick`.  `cb` is the call `tmp->cb_func(tmp->user_data)`. -/
def tickLoop (cb : ℕ → ω → ω) : ℕ → TimeWheel → Option ℕ → ω → Option (TimeWheel × ω)
  | 0, _, _, _ => none
  | _ + 1, w, none, o => some (w, o)
  | n + 1, w, some a, o => do
    let t ← w.heap a
    if 0 < t.rotation then
      let h ← write w.heap (some a) fun t => { t with rotation := t.rotation - 1 }
      tickLoop cb n { w with heap := h } t.next o
    else
      let o := cb a o
      let head ← w.slot w.curSlot
      if head = some a then
        let w ← w.setSlot w.curSlot t.next
        let w ← w.free a
        let head ← w.slot w.curSlot
        let w ← if head ≠ none then w.setSlot w.curSlot none else some w
        let tmp ← w.slot w.curSlot
        tickLoop cb n w tmp o
      else
        let w ← w.unlink t
        let t ← w.heap a
        let tmp2 := t.next
        let w ← w.free a
        tickLoop cb n w tmp2 o

/-- `tick()`.  The fuel is enough for a walk over all timers. -/
def tick (cb : ℕ → ω → ω) (w : TimeWheel) (o : ω) : Option (TimeWheel × ω) := do
  let tmp ← w.slot w.curSlot
  let (w, o) ← tickLoop cb (w.cells + 1) w tmp o
  some ({ w with curSlot := (w.curSlot + 1) % slotCount }, o)

end TimeWheel

end LinuxServer.Wheel
