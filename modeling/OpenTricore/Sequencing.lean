import OpenTricore.ReplyBytes
import OpenTricore.Session

/-! What holds of all handlers because sequencing keeps it. A handler is put together from
questions to its surroundings; it does not read single bytes of the connection except while
it waits for the target, and it does not give up except in a loop that hangs or where a
register cannot be written. -/

namespace OpenTricore
open Lib Lib.Prog

/-- Kept by everything that reads no byte of the connection, and that may only hang. -/
abbrev Kept (K : (α : Type) → StubProg α → Prop) : Prop :=
  Sequential (S := StubSig) K (fun o => o ≠ StubOp.readByte) (fun e => e = .hang)

namespace Kept

variable {K : (α : Type) → StubProg α → Prop} {s : Stub} {polls : Nat}

theorem asks (h : Kept K) (o : StubOp) (ho : o ≠ .readByte) : K _ (ask o) := h.perform o ho

theorem onBus (h : Kept K) {α : Type} {p : Bus α} (hp : p.FailsIn (· = .hang)) :
    K α (onBus p) :=
  h.lift (fun _ ho => by cases ho) hp

theorem putPacket (h : Kept K) (data : List UInt8) : K Unit (putPacket data) :=
  h.bind (h.asks (.putPacket _) (by simp)) fun _ => h.ret ()

theorem returning (h : Kept K) {α β : Type} {p : StubProg α} (hp : K α p) (f : α → β) :
    K β (p >>= fun a => return f a) :=
  h.bind hp fun a => h.ret (f a)

theorem getReg (h : Kept K) (a : McdAddr) : K UInt32 (getReg s a) := by
  refine h.bind (h.asks (.bus (.read _ _)) (by simp)) fun r => ?_
  cases r <;> exact h.ret _

theorem regTexts (h : Kept K) (is : List (Fin NREG)) : K _ (regTexts s is) := by
  induction is with
  | nil => exact h.ret _
  | cons i is ih =>
    refine h.bind ?_ fun _ => h.returning ih _
    rw [regText]
    split
    · exact h.returning (h.getReg _) _
    · exact h.ret _

theorem handle_g (h : Kept K) : K Unit (handle_g s) :=
  h.bind (h.regTexts _) fun _ => h.putPacket _

theorem handle_p (h : Kept K) (p : List UInt8) : K Unit (handle_p s p) := by
  unfold OpenTricore.handle_p
  split
  · exact h.bind (h.getReg _) fun _ => h.putPacket _
  · exact h.putPacket _

theorem handle_m (h : Kept K) (p : List UInt8) : K Unit (handle_m s p) := by
  rw [handle_m_eq]
  split
  · exact h.putPacket _
  · refine h.bind (h.asks (.malloc _) (by simp)) fun mb => h.bind (h.onBus ?_) fun _ =>
      h.putPacket _
    exact (tcmcdRead_returns _ _ _ _).mono fun _ hfalse => hfalse.elim

theorem handle_M (h : Kept K) (p : List UInt8) : K Unit (handle_M s p) := by
  unfold OpenTricore.handle_M
  split
  · dsimp only
    split
    · exact h.putPacket _
    · refine h.bind (h.onBus ?_) fun _ => h.putPacket _
      exact (tcmcdWrite_returns _ _ _ _).mono fun _ hfalse => hfalse.elim
  · exact h.putPacket _

theorem handle_q (h : Kept K) (p : List UInt8) : K Unit (handle_q s p) := by
  unfold OpenTricore.handle_q
  repeat' first | split | exact h.putPacket _

theorem trigSet (h : Kept K) (addr : UInt64) (gtype : Int) (range : UInt32) :
    K _ (trigSet s addr gtype range) := by
  unfold OpenTricore.trigSet
  split
  · exact h.ret _
  · split
    · exact h.ret _
    · refine h.bind (h.asks (.createTrig _ _) (by simp)) fun id => ?_
      cases id with
      | none => exact h.ret _
      | some id =>
        refine h.bind (h.asks (.activateTrigSet _) (by simp)) fun _ => ?_
        split <;> exact h.ret _

theorem trigClear (h : Kept K) (addr : UInt64) (gtype : Int) : K Stub (trigClear s addr gtype) := by
  unfold OpenTricore.trigClear
  split
  · exact h.ret _
  · exact h.bind (h.asks (.removeTrig _ _) (by simp)) fun _ =>
      h.returning (h.asks (.activateTrigSet _) (by simp)) _

theorem handle_Z (h : Kept K) (p : List UInt8) : K Stub (handle_Z s p) := by
  unfold OpenTricore.handle_Z
  dsimp only
  split
  · exact h.returning (h.putPacket _) _
  · split
    · exact h.returning (h.putPacket _) _
    · exact h.bind (h.trigSet _ _ _) fun _ => h.returning (h.putPacket _) _

theorem handle_z (h : Kept K) (p : List UInt8) : K Stub (handle_z s p) := by
  unfold OpenTricore.handle_z
  dsimp only
  split
  · exact h.returning (h.putPacket _) _
  · split
    · exact h.returning (h.putPacket _) _
    · exact h.bind (h.trigClear _ _) fun _ => h.returning (h.putPacket _) _

theorem vFlashErase (h : Kept K) (p : List UInt8) : K Unit (vFlashErase s p) := by
  refine h.bind (h.onBus ?_) fun _ => h.putPacket _
  exact (tcmcdFlashErase_returns _ _ _).mono fun _ hfalse => hfalse.elim

theorem vFlashWrite (h : Kept K) (p : List UInt8) (n : Int) : K Stub (vFlashWrite s p n) := by
  unfold OpenTricore.vFlashWrite
  split
  · exact h.fail _ rfl
  · exact h.returning (h.putPacket _) _

theorem vFlashDone (h : Kept K) : K Stub (vFlashDone s) :=
  h.bind (h.onBus (flashDone_failsIn _ _)) fun _ => h.returning (h.putPacket _) _

theorem handle_H (h : Kept K) (p : List UInt8) : K Stub (handle_H s p) :=
  h.returning (h.putPacket _) _

/-! What resumes the target waits for it. -/

theorem doContinue (h : Kept K) (hwait : K Unit (waitAndReport polls s)) :
    K Unit (doContinue polls s) := by
  refine h.bind (h.asks (.run _) (by simp)) fun ok => ?_
  cases ok
  · exact h.putPacket _
  · exact hwait

theorem doStep (h : Kept K) (hwait : K Unit (waitAndReport polls s)) : K Unit (doStep polls s) := by
  refine h.bind (h.asks (.step _) (by simp)) fun ok => ?_
  cases ok
  · exact h.putPacket _
  · exact hwait

theorem vCont (h : Kept K) (hwait : K Unit (waitAndReport polls s)) (p : List UInt8) :
    K Unit (vCont polls s p) := by
  unfold OpenTricore.vCont
  dsimp only
  split
  · exact h.doStep hwait
  · split
    · exact h.doContinue hwait
    · exact h.putPacket _

theorem handle_v (h : Kept K) (hwait : K Unit (waitAndReport polls s)) (p : List UInt8) (n : Int) :
    K Stub (handle_v polls s p n) := by
  unfold OpenTricore.handle_v
  split
  · exact h.returning (h.putPacket _) _
  split
  · exact h.returning (h.putPacket _) _
  split
  · exact h.returning (h.vCont hwait p) _
  split
  · exact h.returning (h.vFlashErase p) _
  split
  · exact h.vFlashWrite p n
  split
  · exact h.vFlashDone
  · exact h.returning (h.putPacket _) _

/-! What writes registers may die. -/

theorem setReg (h : Kept K) (hdie : ∀ msg, K Unit (.fail (.die msg))) (a : McdAddr) (v : UInt32) :
    K Unit (setReg s a v) := by
  refine h.bind (h.asks (.bus (.write _ _ _)) (by simp)) fun ok => ?_
  cases ok
  · exact hdie _
  · exact h.ret ()

theorem setRegs (h : Kept K) (hdie : ∀ msg, K Unit (.fail (.die msg))) (p : List UInt8)
    (is : List (Fin NREG)) : K Unit (setRegs s p is) := by
  induction is with
  | nil => exact h.ret ()
  | cons i is ih =>
    rw [OpenTricore.setRegs]
    split
    · exact h.bind (h.setReg hdie _ _) fun _ => ih
    · exact ih

theorem handle_G (h : Kept K) (hdie : ∀ msg, K Unit (.fail (.die msg))) (p : List UInt8) :
    K Unit (handle_G s p) := by
  unfold OpenTricore.handle_G
  split
  · exact h.putPacket _
  · exact h.bind (h.setRegs hdie _ _) fun _ => h.putPacket _

theorem handle_P (h : Kept K) (hdie : ∀ msg, K Unit (.fail (.die msg))) (p : List UInt8) :
    K Unit (handle_P s p) := by
  unfold OpenTricore.handle_P
  split
  · exact h.putPacket _
  · split
    · exact h.bind (h.setReg hdie _ _) fun _ => h.putPacket _
    · exact h.putPacket _

theorem ite (_h : Kept K) {α : Type} {c : Prop} [Decidable c] {p q : StubProg α} (hp : K α p)
    (hq : K α q) : K α (if c then p else q) := by
  split
  · exact hp
  · exact hq

theorem dispatch (h : Kept K) (hwait : K Unit (waitAndReport polls s))
    (hdie : ∀ msg, K Unit (.fail (.die msg))) (buf : List UInt8) (n : Int) :
    K (Option Stub) (dispatch polls s buf n) := by
  have hstay : ∀ {p : StubProg Unit}, K Unit p →
      K (Option Stub) (p >>= fun _ => return some s) := fun hp => h.returning hp _
  refine h.ite (hstay (h.putPacket _)) ?_
  refine h.ite (hstay h.handle_g) ?_
  refine h.ite (hstay (h.handle_G hdie _)) ?_
  refine h.ite (hstay (h.handle_p _)) ?_
  refine h.ite (hstay (h.handle_P hdie _)) ?_
  refine h.ite (hstay (h.handle_m _)) ?_
  refine h.ite (hstay (h.handle_M _)) ?_
  refine h.ite (hstay (h.handle_q _)) ?_
  refine h.ite (h.returning (h.handle_v hwait _ n) _) ?_
  refine h.ite (h.returning (h.handle_Z _) _) ?_
  refine h.ite (h.returning (h.handle_z _) _) ?_
  refine h.ite (h.returning (h.handle_H _) _) ?_
  refine h.ite (hstay (h.putPacket _)) ?_
  refine h.ite (hstay (h.doContinue hwait)) ?_
  refine h.ite (hstay (h.doStep hwait)) ?_
  refine h.ite (h.returning (h.putPacket _) _) ?_
  exact h.ite (h.ret none) (hstay (h.putPacket _))

end Kept

end OpenTricore
