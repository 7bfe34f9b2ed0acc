import ResourceIndex.Event.Basic
import ResourceIndex.Indexer
/-
What a change in storage asks of the index: the call that is made for it at once, and whether the
change is done with afterwards or waits for its space to be read anew.
-/
namespace ResourceIndex

inductive IndexCall where
  | trash : ResourceId → IndexCall
  | purge : Reference → IndexCall
  | purgeDeleted : SpaceId → IndexCall
  | move : Reference → IndexCall
  | restore : Reference → IndexCall
  | upsert : Reference → IndexCall
deriving DecidableEq, Repr

namespace IndexCall

def target : IndexCall → String
  | purgeDeleted space => space.text
  | trash id => id.text
  | purge r | move r | restore r | upsert r => r.text

def run {σ ω : Type} (x : Indexer σ ω) : IndexCall → Action σ Unit
  | trash id => x.trashItem id
  | purge r => x.purgeItem r
  | purgeDeleted space => x.purgeDeleted space
  | move r => x.moveItem r
  | restore r => x.restoreItem r
  | upsert r => x.upsertItem r

end IndexCall

namespace ChangeEvent

/-- Of the two notices of an uploaded file only one is taken. -/
def isSubscribed (asyncUploads : Bool) : ChangeEvent → Bool
  | uploadReady _ => asyncUploads
  | fileUploaded _ => !asyncUploads
  | _ => true

def call? : ChangeEvent → Option IndexCall
  | itemPurged r => some (.purge r)
  | trashbinPurged r => some (.purgeDeleted r.space)
  | itemTrashed id _ => some (.trash id)
  | itemMoved _ r => some (.move r)
  | itemRestored r => some (.restore r)
  | tagsAdded r | tagsRemoved r => some (.upsert r)
  | _ => none

/-- Whether an event is acknowledged right after its call, without a reindex of its space. -/
def isPurge : ChangeEvent → Bool
  | itemPurged _ | trashbinPurged _ => true
  | _ => false

end ChangeEvent

end ResourceIndex
