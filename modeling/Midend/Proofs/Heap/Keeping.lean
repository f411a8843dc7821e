import Midend.Proofs.Activity
import Midend.Proofs.Heap.Steps
/-!
# What counting keeps

Whatever a change of one count keeps is kept by all that an operation does to counts, also when it
fails on the way: by the walk over dying objects, and by the operations on several counts.  The
walk is gone through here once; whoever needs that it keeps something looks at a single count.
-/

namespace Midend.Heap

variable {α β : Type} {P : Heap → Prop} {delta : Int}

/-- The property holds after the activity, whether it succeeded or failed, if it held before. -/
def Keeps (P : Heap → Prop) (act : Action α) : Prop := ∀ h, P h → P (run act h).2

theorem keeps_pure (a : α) : Keeps P (pure a) := fun _ hp => hp

theorem keeps_inspect (look : Heap → Except HeapFault α) : Keeps P (inspect look) := fun _ hp => hp

theorem keeps_get : Keeps P get := fun _ hp => hp

theorem Keeps.bind {act : Action α} {next : α → Action β} (hact : Keeps P act)
    (hnext : ∀ a, Keeps P (next a)) : Keeps P (act >>= next) :=
  runOn_bind_trans (R := fun h h' => P h → P h') (fun hfirst hrest hp => hrest (hfirst hp)) hact
    hnext

theorem keeps_giveUp (hchange : ∀ r, Keeps P (changeCount r delta)) (children : List Ref)
    (walk : Walk) : Keeps P (giveUp delta walk children) := by
  induction children generalizing walk with
  | nil => exact keeps_pure walk
  | cons child rest ih =>
      unfold giveUp
      split
      · exact ih walk
      · exact (hchange child).bind fun died => ih _

theorem keeps_drain (hchange : ∀ r, Keeps P (changeCount r delta)) (turns : Nat) (walk : Walk) :
    Keeps P (drain delta turns walk) := by
  induction turns generalizing walk with
  | zero => exact keeps_pure ()
  | succ turns ih =>
      unfold drain
      split
      · exact keeps_pure ()
      · exact Keeps.bind (keeps_inspect _) fun references =>
          (keeps_giveUp hchange references _).bind fun walk => ih walk

theorem keeps_addToCount (hchange : ∀ r, Keeps P (changeCount r delta)) (root target : Ref)
    (structural : Bool) : Keeps P (addToCount root target delta structural) := by
  unfold addToCount
  split
  · exact keeps_pure ()
  refine Keeps.bind (keeps_inspect _) fun dead => ?_
  split
  · exact keeps_pure ()
  refine (hchange root).bind fun died => ?_
  split
  · exact keeps_get.bind fun h => keeps_drain hchange _ _
  · exact keeps_pure ()

theorem keeps_letGoAll (hchange : ∀ r delta, Keeps P (changeCount r delta)) (rs : List Ref) :
    Keeps P (letGoAll rs) := by
  induction rs with
  | nil => exact keeps_pure ()
  | cons r rs ih => exact (keeps_addToCount (hchange · (-1)) r 0 true).bind fun _ => ih

theorem keeps_moveCount (hchange : ∀ r delta, Keeps P (changeCount r delta)) (r : Ref)
    (traced : Bool) (old value : UInt32) : Keeps P (moveCount r traced old value) := by
  unfold moveCount
  split
  · exact (keeps_addToCount (hchange · 1) value r true).bind fun _ =>
      keeps_addToCount (hchange · (-1)) old r true
  · exact keeps_pure ()

end Midend.Heap
