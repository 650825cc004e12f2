import Playground.Proofs.Graph.Batches
import Playground.Proofs.Graph.MarkerTables
import Playground.Proofs.Graph.Pieces

/-! What is restored from the cache markers of a document. -/

namespace Playground

open Html

variable {doc : String}

namespace Html

theorem InOrder.of_made {edits : List Edit} (made : ∀ e ∈ edits, e.IsMadeIn doc) :
    InOrder doc.toList (edits.mergeSort Edit.precedes) := by
  have all : ∀ e ∈ edits.mergeSort Edit.precedes, e.IsMadeIn doc :=
    fun e mem => made e (List.mem_mergeSort.1 mem)
  have order := List.pairwise_mergeSort Edit.precedes_trans Edit.precedes_total edits
  exact ⟨order, order.imp_of_mem fun mem mem' leads => (all _ mem).covers (all _ mem') leads,
    fun e mem => (all e mem).fits⟩

end Html

end Playground
