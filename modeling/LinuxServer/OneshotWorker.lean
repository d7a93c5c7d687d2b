import LinuxServer.Oneshot

/-!
# What a worker reports

The buffer is cleared once, in front of the loop, so a chunk is printed with the end of a
longer one before it.  Of the results that end a sequence of chunks, `EOF` and `EAGAIN` end
the loop; an error of another kind does not.
-/

namespace LinuxServer.Oneshot
open CString

variable {fd : ℤ} {u c : List UInt8} {cs : List (List UInt8)} {e : RecvResult} {n : ℕ}

/-- The chunks, then `e` for ever. -/
def recvs (e : RecvResult) : List (List UInt8) → ℕ → RecvResult
  | [], _ => e
  | c :: _, 0 => .data c
  | _ :: cs, i + 1 => recvs e cs i

/-- What was printed as content. -/
def Action.printed : Action → Option (List UInt8)
  | .content s => some s
  | _ => none

/-- Closing and re-arming. -/
def Action.releases : Action → Bool
  | .close _ => true
  | .resetOneshot _ => true
  | _ => false

/-- The worker ends, and has printed the chunks and closed its socket, or re-armed it if there
was nothing more to read. -/
def Reports (fd : ℤ) (cs : List (List UInt8)) (e : RecvResult) : Prop :=
  ∃ n w actions, Worker.run n (recvs e cs) (.start fd) = some (w, actions) ∧ w.running = false ∧
    actions.filterMap Action.printed = cs ∧
    actions.filter Action.releases = [if e = .again then .resetOneshot fd else .close fd]

/-- A chunk that `recv` may store, without NULs. -/
def Chunk (c : List UInt8) : Prop := 0 ∉ c ∧ 1 ≤ c.length ∧ c.length ≤ bufferSize - 1

/-- A worker in its loop, with the bytes `u` in front of the NULs in its buffer. -/
def holding (fd : ℤ) (u : List UInt8) : Worker where
  sockfd := fd
  buf := u ++ List.replicate (bufferSize - u.length) 0
  running := true

theorem holding_nil : holding fd [] = .start fd := by
  unfold holding Worker.start
  rfl

/-- What is in front of the NULs once `c` was received. -/
def overlay (c u : List UInt8) : List UInt8 := c ++ u.drop c.length

theorem overlay_length (c u : List UInt8) : (overlay c u).length = max c.length u.length := by
  unfold overlay
  rw [List.length_append, List.length_drop]
  omega

theorem zero_notMem_overlay (hc : 0 ∉ c) (hu : 0 ∉ u) : 0 ∉ overlay c u := by
  intro h
  rcases List.mem_append.mp h with h | h
  · exact hc h
  · exact hu (List.mem_of_mem_drop h)

theorem overlay_eq_self : overlay c u = c ↔ u.length ≤ c.length := by
  simp [overlay]

/-- A round that receives `c` prints it with what is left of the bytes before. -/
theorem turn_data (hu : 0 ∉ u) (hulen : u.length ≤ bufferSize - 1) (hc : Chunk c) :
    (holding fd u).turn (.data c) = some (holding fd (overlay c u), [.content (overlay c u)]) := by
  obtain ⟨hc0, -, hclen⟩ := hc
  have hpos : 1 ≤ bufferSize := by decide
  have h0 := zero_notMem_overlay hc0 hu
  have hlen := overlay_length c u
  have hbuf : c ++ (holding fd u).buf.drop c.length = (holding fd (overlay c u)).buf := by
    unfold holding
    simp only
    rw [List.drop_append, List.drop_replicate, hlen]
    unfold overlay
    rw [List.append_assoc]
    congr 3
    omega
  have hstr : str (holding fd (overlay c u)).buf 0 = some (overlay c u) := by
    have hstr := str_zeros (overlay c u) (n := bufferSize - (overlay c u).length) (by omega)
    rwa [cstr_of_notMem h0] at hstr
  unfold Worker.turn
  simp only [hbuf, hstr, Option.bind_eq_bind, Option.bind_some]
  rfl

/-- What is printed for the chunks `cs` after the bytes `u`. -/
def shown : List UInt8 → List (List UInt8) → List (List UInt8)
  | _, [] => []
  | u, c :: cs => overlay c u :: shown (overlay c u) cs

/-- The bytes in front of the NULs after the chunks `cs`. -/
def left (u : List UInt8) (cs : List (List UInt8)) : List UInt8 := cs.foldl (fun u c => overlay c u) u

/-- The worker receives all chunks, one in a round, and goes on from there. -/
theorem run_chunks (hu : 0 ∉ u) (hulen : u.length ≤ bufferSize - 1) (hcs : ∀ c ∈ cs, Chunk c) (n : ℕ) :
    Worker.run (cs.length + n) (recvs e cs) (holding fd u) =
      (Worker.run n (fun _ => e) (holding fd (left u cs))).map fun r =>
        (r.1, (shown u cs).map Action.content ++ r.2) := by
  induction cs generalizing u with
  | nil =>
    simp only [List.length_nil, Nat.zero_add, left, List.foldl_nil, shown, List.map_nil, List.nil_append]
    exact Option.map_id'.symm
  | cons c cs ih =>
    have hc := hcs c (by simp)
    have hover := zero_notMem_overlay hc.1 hu
    have hlen : (overlay c u).length ≤ bufferSize - 1 := by
      rw [overlay_length]
      exact max_le hc.2.2 hulen
    have hn : (c :: cs).length + n = (cs.length + n) + 1 := by
      rw [List.length_cons]
      omega
    have hih := ih hover hlen fun c hc => hcs c (by simp [hc])
    rw [hn, Worker.run, if_pos (by rfl)]
    simp only [recvs, turn_data hu hulen hc, Option.bind_eq_bind, Option.bind_some]
    rw [hih]
    simp only [left, List.foldl_cons, shown, List.map_cons]
    cases Worker.run n (fun _ => e) (holding fd (List.foldl (fun u c => overlay c u) (overlay c u) cs)) <;> rfl

/-- It prints the chunks themselves as long as none of them is shorter than what the buffer
holds. -/
theorem shown_eq_self : shown u cs = cs ↔
    (∀ c ∈ cs, u.length ≤ c.length) ∧ cs.Pairwise fun c d => c.length ≤ d.length := by
  induction cs generalizing u with
  | nil => simp [shown]
  | cons c cs ih =>
    rw [shown, List.cons.injEq, List.forall_mem_cons, List.pairwise_cons, overlay_eq_self]
    constructor
    · rintro ⟨huc, hrest⟩
      rw [overlay_eq_self.mpr huc, ih] at hrest
      exact ⟨⟨huc, fun d hd => huc.trans (hrest.1 d hd)⟩, hrest⟩
    · rintro ⟨⟨huc, -⟩, hrest⟩
      rw [overlay_eq_self.mpr huc, ih]
      exact ⟨huc, hrest⟩

/-! ## The end of the loop -/

/-- Once the loop has ended nothing more happens. -/
theorem run_add {recv : ℕ → RecvResult} {w w' : Worker} {actions : List Action} (m : ℕ)
    (h : Worker.run n recv w = some (w', actions)) (hw : w'.running = false) :
    Worker.run (n + m) recv w = some (w', actions) := by
  induction n generalizing recv w actions with
  | zero =>
    simp only [Worker.run, Option.some.injEq, Prod.mk.injEq] at h
    obtain ⟨rfl, rfl⟩ := h
    cases m with
    | zero => rfl
    | succ m => simp [Worker.run, hw]
  | succ n ih =>
    have hn : n + 1 + m = (n + m) + 1 := by omega
    rw [hn]
    unfold Worker.run at h ⊢
    split
    next hrun =>
      simp only [hrun, if_true, Option.bind_eq_bind, Option.bind_eq_some_iff] at h
      obtain ⟨⟨v, now⟩, hturn, ⟨v', later⟩, hlater, hres⟩ := h
      cases hres
      simp only [hturn, Option.bind_eq_bind, Option.bind_some, ih hlater]
    next hrun => simpa [hrun] using h

theorem run_eof (n : ℕ) : Worker.run (n + 1) (fun _ => .eof) (holding fd u) =
    some ({ holding fd u with running := false }, [.close fd, .foreignerClosed, .endThread fd]) := by
  cases n <;> rfl

theorem run_again (n : ℕ) : Worker.run (n + 1) (fun _ => .again) (holding fd u) =
    some ({ holding fd u with running := false }, [.resetOneshot fd, .readLater, .endThread fd]) := by
  cases n <;> rfl

/-- An error of another kind keeps the worker in its loop. -/
theorem run_error (n : ℕ) :
    Worker.run n (fun _ => .error) (holding fd u) = some (holding fd u, []) := by
  induction n with
  | zero => rfl
  | succ n ih =>
    have hturn : (holding fd u).turn .error = some (holding fd u, []) := rfl
    rw [Worker.run, if_pos (by rfl)]
    simp only [hturn, ih, Option.bind_eq_bind, Option.bind_some, List.append_nil]

theorem filterMap_content (l : List (List UInt8)) :
    (l.map Action.content).filterMap Action.printed = l := by
  induction l with
  | nil => rfl
  | cons s l ih =>
    have hs : (Action.content s).printed = some s := rfl
    rw [List.map_cons, List.filterMap_cons_some hs, ih]

theorem filter_content (l : List (List UInt8)) : (l.map Action.content).filter Action.releases = [] := by
  induction l with
  | nil => rfl
  | cons s l ih =>
    rw [List.map_cons, List.filter_cons_of_neg (by simp [Action.releases])]
    exact ih

/-- A worker that ends with a report has received all chunks and gone on from there. -/
theorem Reports.after_chunks (h : Reports fd cs e) (hcs : ∀ c ∈ cs, Chunk c) :
    ∃ n w actions, Worker.run n (fun _ => e) (holding fd (left [] cs)) = some (w, actions) ∧
      w.running = false ∧ shown [] cs ++ actions.filterMap Action.printed = cs := by
  obtain ⟨n, w, actions, hrun, hw, hprint, -⟩ := h
  have hmore := run_add cs.length hrun hw
  rw [← holding_nil, Nat.add_comm, run_chunks (by simp) (by simp) hcs n, Option.map_eq_some_iff] at hmore
  obtain ⟨⟨w', rest⟩, hrest, heq⟩ := hmore
  cases heq
  rw [List.filterMap_append, filterMap_content] at hprint
  exact ⟨n, w', rest, hrest, hw, hprint⟩

theorem shown_length (u : List UInt8) (cs : List (List UInt8)) : (shown u cs).length = cs.length := by
  induction cs generalizing u with
  | nil => rfl
  | cons c cs ih => rw [shown, List.length_cons, List.length_cons, ih]

theorem Reports.shown_eq (h : Reports fd cs e) (hcs : ∀ c ∈ cs, Chunk c) : shown [] cs = cs := by
  obtain ⟨n, w, actions, -, -, hprint⟩ := h.after_chunks hcs
  have hlen := congrArg List.length hprint
  rw [List.length_append, shown_length] at hlen
  have hnil : actions.filterMap Action.printed = [] := List.eq_nil_of_length_eq_zero (by omega)
  rwa [hnil, List.append_nil] at hprint

theorem not_reports_error (hcs : ∀ c ∈ cs, Chunk c) : ¬ Reports fd cs .error := by
  intro h
  obtain ⟨n, w, actions, hrun, hw, -⟩ := h.after_chunks hcs
  rw [run_error] at hrun
  cases hrun
  cases hw

/-- What the worker does in the round after the chunks. -/
theorem reports_of_end {w : Worker} {last : List Action} (hcs : ∀ c ∈ cs, Chunk c)
    (hsort : cs.Pairwise fun c d => c.length ≤ d.length)
    (hend : Worker.run 1 (fun _ => e) (holding fd (left [] cs)) = some (w, last))
    (hw : w.running = false) (hprint : last.filterMap Action.printed = [])
    (hrel : last.filter Action.releases = [if e = .again then .resetOneshot fd else .close fd]) :
    Reports fd cs e := by
  have hshown : shown [] cs = cs := shown_eq_self.mpr ⟨fun c _ => Nat.zero_le _, hsort⟩
  have hrun : Worker.run (cs.length + 1) (recvs e cs) (holding fd []) = _ :=
    run_chunks (by simp) (by simp) hcs 1
  rw [holding_nil, hshown, hend, Option.map_some] at hrun
  refine ⟨_, _, _, hrun, hw, ?_, ?_⟩
  · rw [List.filterMap_append, filterMap_content, hprint, List.append_nil]
  · rw [List.filter_append, filter_content, List.nil_append]
    exact hrel

/-- The worker reports every chunk and gives its socket back exactly when no chunk is shorter
than one before it and the sequence does not end with an error other than `EAGAIN`. -/
theorem reports_iff (hcs : ∀ c ∈ cs, Chunk c) (he : ∀ bytes, e ≠ .data bytes) :
    Reports fd cs e ↔ (cs.Pairwise fun c d => c.length ≤ d.length) ∧ e ≠ .error := by
  constructor
  · intro h
    refine ⟨(shown_eq_self.mp (h.shown_eq hcs)).2, ?_⟩
    rintro rfl
    exact not_reports_error hcs h
  · rintro ⟨hsort, herr⟩
    cases e with
    | data bytes => exact absurd rfl (he bytes)
    | error => exact absurd rfl herr
    | eof => exact reports_of_end hcs hsort (run_eof 0) rfl rfl rfl
    | again => exact reports_of_end hcs hsort (run_again 0) rfl rfl rfl

theorem reports_iff_growing : Reports 5 [[97], [98, 99]] .again := by
  apply (reports_iff _ _).mpr
  · decide
  · intro c hc
    simp only [List.mem_cons, List.not_mem_nil, or_false] at hc
    rcases hc with rfl | rfl <;> simp [Chunk, bufferSize]
  · simp

/-- A chunk of two bytes and one of one byte: the second is printed with the end of the first.
And without any chunk an error keeps the worker in its loop. -/
theorem worker_misreports : (∀ c ∈ [[97, 98], [99]], Chunk c) ∧ ¬ Reports 5 [[97, 98], [99]] .eof ∧
    ¬ Reports 5 [] .error := by
  have hcs : ∀ c ∈ [[97, 98], [99]], Chunk c := by
    intro c hc
    simp only [List.mem_cons, List.not_mem_nil, or_false] at hc
    rcases hc with rfl | rfl <;> simp [Chunk, bufferSize]
  refine ⟨hcs, fun h => ?_, not_reports_error (by simp)⟩
  exact absurd (h.shown_eq hcs) (by decide)

end LinuxServer.Oneshot
