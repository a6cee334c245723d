import SharedSequence.Store

namespace SharedSequence

variable {β γ : Type} {P Q : β → Prop} {R : γ → Prop}

/-- The computation gives a result with the property, whatever the store is. -/
def Yields (computation : StoreM β) (P : β → Prop) : Prop :=
  ∀ store, P (computation.run store).1

theorem Yields.pure {b : β} (h : P b) : Yields (Pure.pure b) P :=
  fun _ => h

theorem Yields.mono {computation : StoreM β} (h : Yields computation P)
    (hPQ : ∀ b, P b → Q b) : Yields computation Q :=
  fun store => hPQ _ (h store)

theorem Yields.bind {computation : StoreM β} {next : β → StoreM γ} (h : Yields computation P)
    (hn : ∀ b, P b → Yields (next b) R) : Yields (computation >>= next) R :=
  fun store => hn _ (h store) _

theorem Yields.bind_any {computation : StoreM β} {next : β → StoreM γ}
    (hn : ∀ b, Yields (next b) R) : Yields (computation >>= next) R :=
  fun _ => hn _ _

theorem Yields.of_run {computation : StoreM β} {b : β} {store store' : Store}
    (h : Yields computation P) (hr : computation.run store = (b, store')) : P b := by
  have hb := h store
  rwa [hr] at hb

theorem Yields.bind_congr {computation : StoreM β} {next next' : β → StoreM γ}
    (h : Yields computation P) (hn : ∀ b, P b → next b = next' b) :
    (computation >>= next) = (computation >>= next') := by
  funext store
  exact congrFun (hn _ (h store)) _

theorem run_bind_eq {computation : StoreM β} {next : β → StoreM γ} {b : β} {store store' : Store}
    (h : computation.run store = (b, store')) :
    (computation >>= next).run store = (next b).run store' := by
  rw [StateT.run_bind, h]
  rfl

theorem run_bind_ok {ε : Type} {first : ExceptT ε StoreM β} {next : β → ExceptT ε StoreM γ} {b : β}
    {store store' : Store} (h : first.run.run store = (.ok b, store')) :
    (first >>= next).run.run store = (next b).run.run store' := by
  simp only [ExceptT.run_bind, StateT.run_bind, h]
  rfl

end SharedSequence
