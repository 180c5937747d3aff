import Mathlib.Algebra.Group.Nat.Defs
import Mathlib.Algebra.Ring.Int.Defs
import Mathlib.Data.List.Infix

/-!
# Writing a whole buffer

`atomicio` calls the function it is given until the buffer is used up: it offers what
is left, goes on after a short count, tries again after an interrupted call, and gives
up at any other error and at a count of zero.

The function is outside the program, so a run here takes the results of its calls from a
list, and keeps for each call what it was offered beside what it answered.
-/

namespace IrC6
namespace Socket

/-- `EINTR` and `EAGAIN`. -/
def eintr : Int := 4

def eagain : Int := 11

/-- What one call of `func` returned, and the `errno` it left. -/
structure Result where
  res : Int
  errno : Int

/-- One call of `func`: the bytes from `(char *)ptr + pos` on, and its result. -/
structure Call where
  offered : List UInt8
  result : Result

/-- The bytes that a call took of those it was offered. -/
def Call.accepted (call : Call) : List UInt8 := call.offered.take call.result.res.toNat

/-- The results that a call may have: a count from 0 to the size it was given, or `-1`. -/
def Call.Allowed (call : Call) : Prop :=
  call.result.res = -1 ∨ 0 ≤ call.result.res ∧ call.result.res ≤ call.offered.length

/-- `errno == EINTR || errno == EAGAIN`. -/
def Result.again (r : Result) : Prop := r.errno = eintr ∨ r.errno = eagain

instance (r : Result) : Decidable r.again := inferInstanceAs (Decidable (_ ∨ _))

instance (call : Call) : Decidable call.Allowed := inferInstanceAs (Decidable (_ ∨ _ ∧ _))

/-- `pos += (size_t)res`. -/
def addRes (pos : Nat) (res : Int) : Nat := (pos + (res % 2 ^ 64).toNat) % 2 ^ 64

/-- The calls that `atomicio` has made, and what it returned if it has. -/
structure Writing where
  calls : List Call
  ret : Option Int

/-- The loop of `atomicio` from `pos` on; it has not returned when the results run out
before it does. -/
def atomicioFrom (ptr : List UInt8) : Nat → List Result → Writing
  | pos, [] => ⟨[], if pos < ptr.length then none else some 1⟩
  | pos, r :: rs =>
      if pos < ptr.length then
        let call : Call := ⟨ptr.drop pos, r⟩
        if r.res = -1 ∧ r.again then
          let w := atomicioFrom ptr pos rs
          ⟨call :: w.calls, w.ret⟩
        -- Any other -1 falls through to the case of 0.
        else if r.res = -1 ∨ r.res = 0 then ⟨[call], some 0⟩
        else
          let w := atomicioFrom ptr (addRes pos r.res) rs
          ⟨call :: w.calls, w.ret⟩
      else ⟨[], some 1⟩

/-- `atomicio`, over the results of the calls it makes. -/
def atomicio (ptr : List UInt8) (results : List Result) : Writing := atomicioFrom ptr 0 results

/-- The bytes that some calls took, in call order. -/
def acceptedBy (calls : List Call) : List UInt8 := calls.flatMap Call.accepted

@[simp] theorem acceptedBy_nil : acceptedBy [] = [] := rfl

@[simp] theorem acceptedBy_cons (call : Call) (calls : List Call) :
    acceptedBy (call :: calls) = call.accepted ++ acceptedBy calls := List.flatMap_cons

/-- The result that ends the loop with 0. -/
def Result.GivesUp (r : Result) : Prop :=
  r.res = 0 ∨ r.res = -1 ∧ r.errno ≠ eintr ∧ r.errno ≠ eagain

theorem accepted_of_nonpos {call : Call} (h : call.result.res ≤ 0) : call.accepted = [] := by
  rw [Call.accepted, Int.toNat_of_nonpos h, List.take_zero]

/-- A count that fits what is left moves `pos` over the bytes it took. -/
theorem addRes_eq {ptr : List UInt8} (hsize : ptr.length < 2 ^ 64) {pos : Nat} {r : Result}
    (hpos : pos < ptr.length) (hlow : 0 ≤ r.res) (hhigh : r.res ≤ (ptr.drop pos).length) :
    addRes pos r.res = pos + (Call.mk (ptr.drop pos) r).accepted.length := by
  rw [Call.accepted, List.length_take]
  rw [List.length_drop] at hhigh ⊢
  have hres : r.res % 2 ^ 64 = r.res := Int.emod_eq_of_lt hlow (by omega)
  have hmin : min r.res.toNat (ptr.length - pos) = r.res.toNat := by omega
  show (pos + (r.res % 2 ^ 64).toNat) % 2 ^ 64 = pos + min r.res.toNat _
  rw [hres, hmin]
  exact Nat.mod_eq_of_lt (by omega)

/-! ## What a run of the loop writes -/

section Sound

variable {ptr : List UInt8} {pos : Nat}

/-- A run from `pos` on accepts the bytes from there in order: all of them when it returns
1, and it returns 0 after a result that gives up. -/
structure Writing.Sound (ptr : List UInt8) (pos : Nat) (w : Writing) : Prop where
  inOrder : ∀ k, acceptedBy (w.calls.take k) <+: ptr.drop pos
  whole : w.ret = some 1 → acceptedBy w.calls = ptr.drop pos
  stopped : w.ret = some 0 → ∃ call, w.calls.getLast? = some call ∧ call.result.GivesUp

/-- A run that makes no call. -/
theorem Writing.Sound.idle {ret : Option Int} (hzero : ret ≠ some 0)
    (hone : ret = some 1 → ptr.length ≤ pos) : Writing.Sound ptr pos ⟨[], ret⟩ where
  inOrder k := by
    rw [List.take_nil]
    exact List.nil_prefix
  whole h := (List.drop_eq_nil_of_le (hone h)).symm
  stopped h := absurd h hzero

/-- A run whose only call gives up. -/
theorem Writing.Sound.stop {r : Result} (h : r.GivesUp) :
    Writing.Sound ptr pos ⟨[⟨ptr.drop pos, r⟩], some 0⟩ where
  inOrder k := by
    have hnone : (Call.mk (ptr.drop pos) r).accepted = [] :=
      accepted_of_nonpos (by show r.res ≤ 0; unfold Result.GivesUp at h; omega)
    cases k with
    | zero => exact List.nil_prefix
    | succ k =>
        rw [List.take_succ_cons, List.take_nil, acceptedBy_cons, hnone]
        exact List.nil_prefix
  whole hret := absurd (Option.some.inj hret) (by decide)
  stopped _ := ⟨_, rfl, h⟩

/-- A run that goes on behind the bytes its first call took. -/
theorem Writing.Sound.cons {r : Result} {w : Writing}
    (h : w.Sound ptr (pos + (Call.mk (ptr.drop pos) r).accepted.length)) :
    Writing.Sound ptr pos ⟨⟨ptr.drop pos, r⟩ :: w.calls, w.ret⟩ := by
  have hsplit : ptr.drop pos = (Call.mk (ptr.drop pos) r).accepted ++
      ptr.drop (pos + (Call.mk (ptr.drop pos) r).accepted.length) := by
    rw [← List.drop_drop]
    refine (List.prefix_iff_eq_append.mp ?_).symm
    exact List.take_prefix _ _
  refine ⟨fun k => ?_, fun hret => ?_, fun hret => ?_⟩
  · cases k with
    | zero => exact List.nil_prefix
    | succ k =>
        have hrest := (List.prefix_append_right_inj
          (Call.mk (ptr.drop pos) r).accepted).mpr (h.inOrder k)
        rw [← hsplit] at hrest
        exact hrest
  · rw [acceptedBy_cons, h.whole hret]
    exact hsplit.symm
  · obtain ⟨last, hlast, hgives⟩ := h.stopped hret
    refine ⟨last, ?_, hgives⟩
    show (_ :: w.calls).getLast? = some last
    rw [List.getLast?_cons, hlast]
    rfl

/-- The loop, from any `pos`: an iteration tries again, gives up, or moves `pos` on. -/
theorem atomicioFrom_sound (hsize : ptr.length < 2 ^ 64) {results : List Result}
    (hallowed : ∀ call ∈ (atomicioFrom ptr pos results).calls, call.Allowed) :
    (atomicioFrom ptr pos results).Sound ptr pos := by
  induction results generalizing pos with
  | nil =>
      unfold atomicioFrom
      split
      · exact Writing.Sound.idle (by decide) (fun h => absurd h (by decide))
      · exact Writing.Sound.idle (by decide) (fun _ => by omega)
  | cons r rs ih =>
      unfold atomicioFrom at hallowed ⊢
      by_cases hpos : pos < ptr.length
      · simp only [if_pos hpos] at hallowed ⊢
        by_cases hagain : r.res = -1 ∧ r.again
        · simp only [if_pos hagain] at hallowed ⊢
          have hnone : (Call.mk (ptr.drop pos) r).accepted = [] :=
            accepted_of_nonpos (by show r.res ≤ 0; omega)
          refine Writing.Sound.cons ?_
          rw [hnone]
          exact ih (fun call hcall => hallowed call (List.mem_cons_of_mem _ hcall))
        · by_cases hstop : r.res = -1 ∨ r.res = 0
          · simp only [if_neg hagain, if_pos hstop]
            refine Writing.Sound.stop ?_
            unfold Result.GivesUp
            unfold Result.again at hagain
            omega
          · simp only [if_neg hagain, if_neg hstop] at hallowed ⊢
            have hfirst : r.res = -1 ∨ 0 ≤ r.res ∧ r.res ≤ (ptr.drop pos).length :=
              hallowed _ List.mem_cons_self
            have hmoved := addRes_eq hsize (r := r) hpos (by omega) (by omega)
            refine Writing.Sound.cons ?_
            rw [← hmoved]
            exact ih (fun call hcall => hallowed call (List.mem_cons_of_mem _ hcall))
      · simp only [if_neg hpos]
        exact Writing.Sound.idle (by decide) (fun _ => by omega)

end Sound

/-- Whatever results within its contract the function gives, the bytes `atomicio` has got
accepted are at every point the beginning of the buffer, they are the whole of it when it
returns 1, and it returns 0 only after a result that gives up. -/
theorem atomicio_accepts (ptr : List UInt8) (hsize : ptr.length < 2 ^ 64)
    (results : List Result)
    (hallowed : ∀ call ∈ (atomicio ptr results).calls, call.Allowed) :
    ((atomicio ptr results).ret = some 1 →
      acceptedBy (atomicio ptr results).calls = ptr) ∧
    (∀ k, acceptedBy ((atomicio ptr results).calls.take k) <+: ptr) ∧
    ((atomicio ptr results).ret = some 0 →
      ∃ call, (atomicio ptr results).calls.getLast? = some call ∧ call.result.GivesUp) := by
  have h : (atomicio ptr results).Sound ptr 0 := atomicioFrom_sound hsize hallowed
  exact ⟨h.whole, h.inOrder, h.stopped⟩

theorem atomicio_accepts_short :
    acceptedBy (atomicio [1, 2, 3] [⟨1, 0⟩, ⟨-1, eintr⟩, ⟨2, 0⟩]).calls = [1, 2, 3] :=
  (atomicio_accepts [1, 2, 3] (by decide) [⟨1, 0⟩, ⟨-1, eintr⟩, ⟨2, 0⟩] (by decide)).1 rfl

end Socket
end IrC6
