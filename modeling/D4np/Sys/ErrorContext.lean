import D4np.Core.Allocator
import D4np.Lib.ByteMem
import D4np.Lib.TransitionSystem
import Mathlib.Tactic

/-!
# The error context of a thread

A stack of sixteen frames, each with a status and a message of 256 bytes.  A pop hands out a pointer
to the message in the frame, which stays there, so a caller may push what it popped: the message
then comes from the storage that is written.  The copy goes forward and its source is never behind
the byte it writes, so it still copies what was there before (`copyLoop_spec`).

A push writes the frame at the depth it finds and no other byte.  So the frames below the depth are
the pushes that were kept (`Run.step_frames`), and a message that was handed out stays until a push
comes to its depth.
-/

namespace D4np

open ByteMem TransitionSystem

/-- `error_frame`. -/
@[ext]
structure ErrorFrame where
  status : Status
  message : Mem

/-- The thread-local variables `g_stack` and `g_depth`. -/
structure ErrorContext where
  stack : ℕ → ErrorFrame
  depth : ℕ

namespace ErrorContext

/-- `D4NP_ERROR_CONTEXT_MAX_DEPTH`. -/
def maxDepth : ℕ := 16

/-- `D4NP_ERROR_MESSAGE_CAP`. -/
def messageCap : ℕ := 256

/-- A message a caller passes: none, bytes of its own, or a place in the message of a frame, as a
pop hands them out. -/
inductive Message
  | null
  | text (bytes : Mem)
  | frame (k : Fin 16) (offset : Fin 256)

/-- `message[i]`. -/
def Message.byte (c : ErrorContext) : Message → ℕ → UInt8
  | .null, _ => 0
  | .text bytes, i => bytes i
  | .frame k offset, i => (c.stack k).message (offset + i)

/-- `f->message[i] = b`, for the frame at `f`. -/
def setByte (c : ErrorContext) (f i : ℕ) (b : UInt8) : ErrorContext :=
  { c with
    stack := Function.update c.stack f
      { c.stack f with message := Function.update (c.stack f).message i b } }

/-- The loop of `d4np_error_context_push`, with `rem` bytes left for the message: the context and
`i` after it. -/
def copyLoop (message : Message) (f : ℕ) : ℕ → ErrorContext → ℕ → ErrorContext × ℕ
  | 0, c, i => (c, i)
  | rem + 1, c, i =>
    if message.byte c i ≠ 0 then copyLoop message f rem (c.setByte f i (message.byte c i)) (i + 1)
    else (c, i)

/-- `d4np_error_context_push`. -/
def push (c : ErrorContext) (status : Status) (message : Message) : Status × ErrorContext :=
  if c.depth < maxDepth then
    let f := c.depth
    let c := { c with depth := c.depth + 1 }
    let c := { c with stack := Function.update c.stack f { c.stack f with status := status } }
    let r := match message with
      | .null => (c, 0)
      | message => copyLoop message f (messageCap - 1) c 0
    (status, r.1.setByte f r.2 0)
  else (status, c)

/-- `d4np_error_context_pop`: what it returns, the status and the frame whose message it writes
through its pointers if these are not null, and the context. -/
def pop (c : ErrorContext) (outStatus outMessage : Bool) :
    (Bool × Option Status × Option ℕ) × ErrorContext :=
  if c.depth = 0 then ((false, none, none), c)
  else
    let f := c.depth - 1
    ((true, if outStatus then some (c.stack f).status else none,
      if outMessage then some f else none), { c with depth := f })

/-- `d4np_error_context_clear`. -/
def clear (c : ErrorContext) : ErrorContext := { c with depth := 0 }

/-- The variables of a new thread. -/
def start : ErrorContext := ⟨fun _ => ⟨.ok, fun _ => 0⟩, 0⟩

/-! ## Runs -/

/-- The string in the first `n` bytes: those before the first NUL. -/
def cstr (m : Mem) (n : ℕ) : List UInt8 := (front m n).takeWhile (· ≠ 0)

/-- The frames on the stack, the most recent first. -/
def frames (c : ErrorContext) : List (Status × List UInt8) :=
  (List.range c.depth).reverse.map fun k =>
    ((c.stack k).status, cstr (c.stack k).message messageCap)

/-- A call on the context. -/
inductive Call
  | push (status : Status) (message : Message)
  | pop (outStatus outMessage : Bool)
  | clear

/-- What a call was, with the first 255 bytes of the message as they were when it was made. -/
inductive Op
  | push (status : Status) (text : List UInt8)
  | pop
  | clear

def Call.op (c : ErrorContext) : Call → Op
  | .push status message => .push status (cstr (message.byte c) (messageCap - 1))
  | .pop _ _ => .pop
  | .clear => .clear

def exec (c : ErrorContext) : Call → ErrorContext
  | .push status message => (c.push status message).2
  | .pop outStatus outMessage => (c.pop outStatus outMessage).2
  | .clear => c.clear

/-- A context in use, with the calls made so far, newest first. -/
structure Run where
  ctx : ErrorContext
  history : List Op

/-- The runs of a new thread. -/
def system : System Run Call where
  init r := r = ⟨start, []⟩
  step r c := some ⟨r.ctx.exec c, c.op r.ctx :: r.history⟩

/-- The runs from a given context. -/
def systemFrom (c₀ : ErrorContext) : System ErrorContext Call where
  init c := c = c₀
  step c call := some (c.exec call)

/-- The call is no push that lands at depth `k`. -/
def LandsElsewhere (k : ℕ) (c : ErrorContext) : Call → Prop
  | .push _ _ => c.depth ≠ k
  | _ => True

instance (k : ℕ) (c : ErrorContext) : ∀ call, Decidable (LandsElsewhere k c call)
  | .push _ _ => inferInstanceAs (Decidable (c.depth ≠ k))
  | .pop _ _ => isTrue trivial
  | .clear => isTrue trivial

/-- A stack of at most sixteen frames: the pushes of a history that were kept and have not been
popped or cleared, the most recent first. -/
def expected : List Op → List (Status × List UInt8)
  | [] => []
  | .push status text :: history =>
    if (expected history).length < maxDepth then (status, text) :: expected history
    else expected history
  | .pop :: history => (expected history).tail
  | .clear :: _ => []

/-! ## Strings -/

/-- The string ends at its first NUL, or where the bytes do. -/
theorem cstr_eq_front {m : Mem} {n k : ℕ} (hk : k ≤ n) (hne : ∀ x < k, m x ≠ 0)
    (hend : k = n ∨ m k = 0) : cstr m n = front m k := by
  obtain ⟨d, rfl⟩ := Nat.exists_eq_add_of_le hk
  have hpos : ∀ b ∈ front m k, decide (b ≠ 0) = true := by
    intro b hb
    obtain ⟨x, hx, rfl⟩ := List.mem_map.mp hb
    exact decide_eq_true (hne x (List.mem_range.mp hx))
  unfold cstr
  rw [front_add, List.takeWhile_append_of_pos hpos]
  rcases d with _ | d
  · exact List.append_nil _
  · have hzero : m k = 0 := hend.resolve_left (by omega)
    rw [bytesAt_succ, List.takeWhile_cons_of_neg (by simpa using hzero), List.append_nil]

/-! ## The copy -/

variable {message : Message} {c c₀ : ErrorContext} {f i : ℕ}

theorem setByte_message (c : ErrorContext) (f i : ℕ) (b : UInt8) (k x : ℕ) :
    ((c.setByte f i b).stack k).message x =
      if k = f ∧ x = i then b else (c.stack k).message x := by
  unfold setByte
  by_cases hk : k = f
  · subst hk
    simp only [Function.update_self, true_and]
    exact Function.update_apply ..
  · simp only [Function.update_of_ne hk, hk, false_and, if_false]

theorem setByte_status (c : ErrorContext) (f i : ℕ) (b : UInt8) (k : ℕ) :
    ((c.setByte f i b).stack k).status = (c.stack k).status := by
  unfold setByte
  by_cases hk : k = f
  · subst hk
    simp only [Function.update_self]
  · simp only [Function.update_of_ne hk]

/-- Part of a copy to the frame `f`: the bytes before `i` are the first of the message as it was,
and everything else is as it was. -/
structure Copied (message : Message) (f : ℕ) (c₀ c : ErrorContext) (i : ℕ) : Prop where
  depth : c.depth = c₀.depth
  status : ∀ k, (c.stack k).status = (c₀.stack k).status
  bytes : ∀ k x, (c.stack k).message x =
    if k = f ∧ x < i then message.byte c₀ x else (c₀.stack k).message x
  ne_zero : ∀ x < i, message.byte c₀ x ≠ 0

theorem Copied.refl (message : Message) (f : ℕ) (c : ErrorContext) : Copied message f c c 0 where
  depth := rfl
  status _ := rfl
  bytes k x := by rw [if_neg (by omega)]
  ne_zero x hx := absurd hx (Nat.not_lt_zero x)

/-- The next byte of the message has not been written. -/
theorem Copied.byte (h : Copied message f c₀ c i) : message.byte c i = message.byte c₀ i := by
  cases message with
  | null => rfl
  | text bytes => rfl
  | frame k offset =>
    show (c.stack k).message (offset + i) = (c₀.stack k).message (offset + i)
    rw [h.bytes, if_neg (by omega)]

theorem Copied.next (h : Copied message f c₀ c i) (hne : message.byte c i ≠ 0) :
    Copied message f c₀ (c.setByte f i (message.byte c i)) (i + 1) where
  depth := h.depth
  status k := (setByte_status c f i _ k).trans (h.status k)
  bytes k x := by
    rw [setByte_message, h.bytes]
    by_cases hx : k = f ∧ x = i
    · rw [if_pos hx, if_pos (by omega), hx.2, h.byte]
    · rw [if_neg hx]
      congr 1
      rw [eq_iff_iff]
      omega
  ne_zero x hx := by
    rcases Nat.lt_succ_iff_lt_or_eq.mp hx with hx | rfl
    · exact h.ne_zero x hx
    · rw [← h.byte]
      exact hne

/-- **The copy.** It ends before a NUL, or with the last byte there is room for. -/
theorem copyLoop_spec : ∀ rem c i, Copied message f c₀ c i →
    ∃ c' n, copyLoop message f rem c i = (c', n) ∧ Copied message f c₀ c' n ∧ n ≤ i + rem ∧
      (n = i + rem ∨ message.byte c₀ n = 0) := by
  intro rem
  induction rem with
  | zero => intro c i h; exact ⟨c, i, rfl, h, le_refl _, Or.inl rfl⟩
  | succ rem ih =>
    intro c i h
    unfold copyLoop
    by_cases hne : message.byte c i ≠ 0
    · rw [if_pos hne]
      obtain ⟨c', n, he, h', hle, hend⟩ := ih _ _ (h.next hne)
      exact ⟨c', n, he, h', by omega, hend.imp_left fun hn => by omega⟩
    · rw [if_neg hne]
      rw [h.byte, ne_eq, not_not] at hne
      exact ⟨c, i, rfl, h, Nat.le_add_right _ _, Or.inr hne⟩

/-! ## The calls -/

/-- The context between taking a frame and copying the message. -/
def taken (c : ErrorContext) (status : Status) : ErrorContext :=
  ⟨Function.update c.stack c.depth { c.stack c.depth with status := status }, c.depth + 1⟩

theorem taken_message (c : ErrorContext) (status : Status) (k : ℕ) :
    ((c.taken status).stack k).message = (c.stack k).message := by
  unfold taken
  by_cases hk : k = c.depth
  · subst hk
    simp only [Function.update_self]
  · simp only [Function.update_of_ne hk]

theorem taken_status (c : ErrorContext) (status : Status) (k : ℕ) :
    ((c.taken status).stack k).status = if k = c.depth then status else (c.stack k).status := by
  unfold taken
  by_cases hk : k = c.depth
  · subst hk
    simp only [Function.update_self, if_true]
  · simp only [Function.update_of_ne hk, if_neg hk]

theorem taken_byte (c : ErrorContext) (status : Status) (message : Message) :
    message.byte (c.taken status) = message.byte c := by
  funext x
  cases message with
  | null => rfl
  | text bytes => rfl
  | frame k offset => exact congrFun (taken_message c status k) _

theorem push_copies (hd : c.depth < maxDepth) (status : Status) (hne : message ≠ .null) :
    c.push status message = (status,
      (copyLoop message c.depth (messageCap - 1) (c.taken status) 0).1.setByte c.depth
        (copyLoop message c.depth (messageCap - 1) (c.taken status) 0).2 0) := by
  unfold push
  rw [if_pos hd]
  cases message with
  | null => exact absurd rfl hne
  | text bytes => rfl
  | frame k offset => rfl

/-- What a push that is kept does: it ends in the frame it took, behind the bytes it copied. -/
theorem push_eq (hd : c.depth < maxDepth) (status : Status) (message : Message) :
    ∃ c' n, c.push status message = (status, c'.setByte c.depth n 0) ∧
      Copied message c.depth (c.taken status) c' n ∧ n ≤ messageCap - 1 ∧
      (n = messageCap - 1 ∨ message.byte c n = 0) := by
  by_cases hnull : message = .null
  · subst hnull
    exact ⟨_, 0, if_pos hd, .refl .null c.depth (c.taken status), Nat.zero_le _, Or.inr rfl⟩
  · obtain ⟨c', n, he, hc, hle, hend⟩ := copyLoop_spec (messageCap - 1) (c.taken status) 0
      (.refl message c.depth (c.taken status))
    rw [Nat.zero_add] at hle hend
    rw [taken_byte] at hend
    refine ⟨c', n, ?_, hc, hle, hend⟩
    rw [push_copies hd status hnull, he]

/-- **A push that is kept.** It puts the status and the string of the message into the frame at the
depth, terminates it, and leaves every other frame as it was. -/
structure Pushed (status : Status) (text : List UInt8) (c c' : ErrorContext) : Prop where
  depth : c'.depth = c.depth + 1
  others : ∀ k, k ≠ c.depth → c'.stack k = c.stack k
  status_eq : (c'.stack c.depth).status = status
  text_eq : cstr (c'.stack c.depth).message messageCap = text
  terminated : ∃ x < messageCap, (c'.stack c.depth).message x = 0

theorem push_kept (hd : c.depth < maxDepth) (status : Status) (message : Message) :
    Pushed status (cstr (message.byte c) (messageCap - 1)) c (c.push status message).2 := by
  obtain ⟨c', n, he, hc, hle, hend⟩ := push_eq hd status message
  have hlt : n < messageCap := hle.trans_lt (by decide)
  -- the message of every frame after the call
  have hbytes : ∀ k x, ((c'.setByte c.depth n 0).stack k).message x =
      if k = c.depth ∧ x = n then 0
      else if k = c.depth ∧ x < n then message.byte c x else (c.stack k).message x := by
    intro k x
    rw [setByte_message, hc.bytes, taken_byte, taken_message]
  have hne : ∀ x < n, message.byte c x ≠ 0 := by
    have := hc.ne_zero
    rwa [taken_byte] at this
  have hzero : ((c'.setByte c.depth n 0).stack c.depth).message n = 0 := by
    rw [hbytes, if_pos ⟨rfl, rfl⟩]
  have hfront : ∀ x < n, ((c'.setByte c.depth n 0).stack c.depth).message x = message.byte c x := by
    intro x hx
    rw [hbytes, if_neg (by omega), if_pos ⟨rfl, hx⟩]
  rw [he]
  refine ⟨hc.depth, fun k hk => ?_, ?_, ?_, n, hlt, hzero⟩
  · have hstatus : ((c'.setByte c.depth n 0).stack k).status = (c.stack k).status := by
      rw [setByte_status, hc.status, taken_status, if_neg hk]
    have hmessage : ((c'.setByte c.depth n 0).stack k).message = (c.stack k).message := by
      funext x
      rw [hbytes, if_neg (by omega), if_neg (by omega)]
    exact ErrorFrame.ext hstatus hmessage
  · show ((c'.setByte c.depth n 0).stack c.depth).status = status
    rw [setByte_status, hc.status, taken_status, if_pos rfl]
  · show cstr ((c'.setByte c.depth n 0).stack c.depth).message messageCap = _
    rw [cstr_eq_front hlt.le (fun x hx => by rw [hfront x hx]; exact hne x hx) (Or.inr hzero),
      cstr_eq_front hle hne hend]
    exact front_congr hfront

/-- A push onto a full stack is dropped. -/
theorem push_full (hd : ¬ c.depth < maxDepth) (status : Status) (message : Message) :
    c.push status message = (status, c) := by
  unfold push
  rw [if_neg hd]

theorem push_status (c : ErrorContext) (status : Status) (message : Message) :
    (c.push status message).1 = status := by
  unfold push
  split_ifs <;> rfl

theorem pop_zero (hd : c.depth = 0) (outStatus outMessage : Bool) :
    c.pop outStatus outMessage = ((false, none, none), c) := by
  unfold pop
  rw [if_pos hd]

theorem pop_succ {d : ℕ} (hd : c.depth = d + 1) (outStatus outMessage : Bool) :
    c.pop outStatus outMessage =
      ((true, if outStatus then some (c.stack d).status else none,
        if outMessage then some d else none), { c with depth := d }) := by
  unfold pop
  rw [if_neg (by omega), hd]
  rfl

theorem pop_ctx (c : ErrorContext) (outStatus outMessage : Bool) :
    (c.pop outStatus outMessage).2 = { c with depth := c.depth - 1 } := by
  rcases hd : c.depth with _ | d
  · rw [pop_zero hd]
    show c = ⟨c.stack, 0⟩
    rw [← hd]
  · rw [pop_succ hd]
    rfl

/-! ## Frames -/

theorem length_frames (c : ErrorContext) : c.frames.length = c.depth := by
  simp [frames]

theorem frames_succ {d : ℕ} (hd : c.depth = d + 1) :
    c.frames = ((c.stack d).status, cstr (c.stack d).message messageCap) ::
      frames { c with depth := d } := by
  unfold frames
  rw [hd, List.range_succ, List.reverse_append]
  rfl

theorem Pushed.frames {c' : ErrorContext} {status : Status} {text : List UInt8}
    (h : Pushed status text c c') : c'.frames = (status, text) :: c.frames := by
  rw [frames_succ h.depth, h.status_eq, h.text_eq]
  congr 1
  apply List.map_congr_left
  intro k hk
  have hlt : k < c.depth := List.mem_range.mp (List.mem_reverse.mp hk)
  rw [show c'.stack k = c.stack k from h.others k hlt.ne]

theorem pop_frames (c : ErrorContext) (outStatus outMessage : Bool) :
    (c.pop outStatus outMessage).2.frames = c.frames.tail := by
  rw [pop_ctx]
  rcases hd : c.depth with _ | d
  · rw [List.eq_nil_of_length_eq_zero ((length_frames c).trans hd)]
    rfl
  · rw [frames_succ hd]
    rfl

/-- **The step.** Every call does to the frames what it does to the abstract stack. -/
theorem Run.step_frames {r : Run} (hr : r.ctx.frames = expected r.history) (call : Call) :
    (r.ctx.exec call).frames = expected (call.op r.ctx :: r.history) := by
  cases call with
  | push status message =>
    show (r.ctx.push status message).2.frames = if _ then _ else _
    rw [← hr, length_frames]
    by_cases hd : r.ctx.depth < maxDepth
    · rw [if_pos hd]
      exact (push_kept hd status message).frames
    · rw [if_neg hd, push_full hd]
  | pop outStatus outMessage => exact (pop_frames _ _ _).trans (congrArg List.tail hr)
  | clear => rfl

/-- What a call can do: it is a push that is kept, or it leaves the frames and takes none. -/
theorem exec_cases (c : ErrorContext) (call : Call) :
    (∃ status message, call = .push status message ∧ c.depth < maxDepth ∧
      Pushed status (cstr (message.byte c) (messageCap - 1)) c (c.exec call)) ∨
    (c.exec call).stack = c.stack ∧ (c.exec call).depth ≤ c.depth := by
  cases call with
  | push status message =>
    by_cases hd : c.depth < maxDepth
    · exact Or.inl ⟨status, message, rfl, hd, push_kept hd status message⟩
    · right
      show (c.push status message).2.stack = c.stack ∧ (c.push status message).2.depth ≤ c.depth
      rw [push_full hd]
      exact ⟨rfl, le_refl _⟩
  | pop outStatus outMessage =>
    right
    show (c.pop outStatus outMessage).2.stack = c.stack ∧
      (c.pop outStatus outMessage).2.depth ≤ c.depth
    rw [pop_ctx]
    exact ⟨rfl, Nat.sub_le _ _⟩
  | clear => exact Or.inr ⟨rfl, Nat.zero_le _⟩

/-- A message is terminated in every frame, used or not. -/
def Terminated (c : ErrorContext) : Prop :=
  ∀ k, ∃ x < messageCap, (c.stack k).message x = 0

theorem Terminated.exec (h : c.Terminated) (call : Call) : (c.exec call).Terminated := by
  intro k
  rcases exec_cases c call with ⟨_, _, -, -, hp⟩ | ⟨hstack, -⟩
  · by_cases hk : k = c.depth
    · subst hk
      exact hp.terminated
    · rw [hp.others k hk]
      exact h k
  · rw [hstack]
    exact h k

theorem exec_depth_le (h : c.depth ≤ maxDepth) (call : Call) : (c.exec call).depth ≤ maxDepth := by
  rcases exec_cases c call with ⟨_, _, -, hd, hp⟩ | ⟨-, hdepth⟩
  · rw [hp.depth]
    exact hd
  · exact hdepth.trans h

/-- A call that lands elsewhere leaves the frame. -/
theorem exec_stack {k : ℕ} {call : Call} (h : LandsElsewhere k c call) :
    (c.exec call).stack k = c.stack k := by
  rcases exec_cases c call with ⟨_, _, rfl, -, hp⟩ | ⟨hstack, -⟩
  · exact hp.others k (Ne.symm h)
  · rw [hstack]

/-- A frame stays over a whole run in which no push lands at its depth. -/
theorem stack_of_elsewhere {k : ℕ} {later : ErrorContext}
    (h : Reachable ((systemFrom c).guarded (LandsElsewhere k)) later) :
    later.stack k = c.stack k := by
  refine h.induct_guarded (P := fun later => later.stack k = c.stack k) ?_ ?_
  · rintro _ rfl
    rfl
  · intro s call t hs hg hst
    obtain rfl := Option.some.inj hst
    exact (exec_stack hg).trans hs

/-! ## The context as a stack -/

theorem reachable_inv {r : Run} (h : Reachable system r) :
    r.ctx.frames = expected r.history ∧ r.ctx.depth ≤ maxDepth ∧ r.ctx.Terminated := by
  refine h.induct (P := fun r => r.ctx.frames = expected r.history ∧ r.ctx.depth ≤ maxDepth ∧
    r.ctx.Terminated) ?_ ?_
  · rintro _ rfl
    exact ⟨rfl, Nat.zero_le _, fun _ => ⟨0, by decide, rfl⟩⟩
  · rintro r call t ⟨hf, hd, ht⟩ hst
    obtain rfl := Option.some.inj hst
    exact ⟨Run.step_frames hf call, exec_depth_le hd call, ht.exec call⟩

/-- What a pop gives back where the abstract stack is as said: nothing, or the status and the text
of the last push that was kept, in a frame whose message stays until a push lands at its depth. -/
def PopReturns (c : ErrorContext) (outStatus outMessage : Bool) :
    List (Status × List UInt8) → Prop
  | [] => c.pop outStatus outMessage = ((false, none, none), c)
  | (status, text) :: _ => ∃ k c', c.pop outStatus outMessage =
      ((true, if outStatus then some status else none, if outMessage then some k else none), c') ∧
    cstr (c'.stack k).message messageCap = text ∧
    ∀ later, Reachable ((systemFrom c').guarded (LandsElsewhere k)) later →
      (later.stack k).message = (c'.stack k).message

theorem popReturns_frames (c : ErrorContext) (outStatus outMessage : Bool) :
    c.PopReturns outStatus outMessage c.frames := by
  rcases hd : c.depth with _ | d
  · rw [List.eq_nil_of_length_eq_zero ((length_frames c).trans hd)]
    exact pop_zero hd _ _
  · rw [frames_succ hd]
    exact ⟨d, _, pop_succ hd _ _, rfl, fun _ hl => congrArg _ (stack_of_elsewhere hl)⟩

/-- **The error context is a stack of at most sixteen frames.** In every run its frames are the
pushes that were kept and are still there; a push returns its status, and is dropped on a full
stack; every message is terminated; and a pop returns the last push that was kept. -/
theorem errorContext_refines_stack {r : Run} (h : Reachable system r) :
    r.ctx.frames = expected r.history ∧ r.ctx.frames.length = r.ctx.depth ∧
    r.ctx.depth ≤ maxDepth ∧ r.ctx.Terminated ∧
    (∀ status message, (r.ctx.push status message).1 = status) ∧
    (∀ status message, r.ctx.depth = maxDepth → (r.ctx.push status message).2 = r.ctx) ∧
    ∀ outStatus outMessage, r.ctx.PopReturns outStatus outMessage (expected r.history) := by
  obtain ⟨hf, hd, ht⟩ := reachable_inv h
  refine ⟨hf, length_frames _, hd, ht, push_status _, fun status message hfull => ?_, ?_⟩
  · rw [push_full (by omega)]
  · rw [← hf]
    exact popReturns_frames r.ctx

/-- A message that was popped is pushed again, from the frame it lies in. -/
theorem errorContext_refines_stack_repushed : ∃ r : Run, Reachable system r ∧
    r.history = [.push .errIo [97], .pop, .push .errAgain [97]] ∧
    r.ctx.frames = [(.errIo, [97])] ∧ r.ctx.PopReturns true true [(.errIo, [97])] := by
  have h : Reachable system _ := (((Reachable.init rfl).step
    (e := .push .errAgain (.text fun x => if x = 0 then 97 else 0)) rfl).step
    (e := .pop true true) rfl).step (e := .push .errIo (.frame 0 0)) rfl
  obtain ⟨hframes, -, -, -, -, -, hpop⟩ := errorContext_refines_stack h
  exact ⟨_, h, rfl, hframes, hpop true true⟩

end ErrorContext

end D4np
