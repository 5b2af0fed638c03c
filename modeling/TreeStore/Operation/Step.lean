import TreeStore.Call
import TreeStore.Log

/-!
# Operations as machines

A recursive operation runs against a store that others change at any time, so it is a machine that
asks for one primitive at a time and goes on from the answer. Between two requests it holds no claim
on the store.
-/

namespace TreeStore

/-- What a machine in some state does next. -/
inductive Next (σ : Type) where
  /-- It is done. -/
  | finished (outcome : Answer)
  /-- It calls the store. From the answer follow log records and the next state. -/
  | calling (call : Call) (resume : Answer → List LogRecord × σ)
  /-- It asks for the mode in which containers are created in this store. -/
  | choosing (resume : Except Failure CreateMode → List LogRecord × σ)

/-- The same request by a machine with other states. -/
def Next.map {σ τ : Type} (f : σ → τ) : Next σ → Next τ
  | finished outcome => finished outcome
  | calling call resume => calling call fun answer => (resume answer).map id f
  | choosing resume => choosing fun answer => (resume answer).map id f

end TreeStore
