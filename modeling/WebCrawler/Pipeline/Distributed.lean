import WebCrawler.Models
import WebCrawler.Lib.Effects

/-!
# The distributed processing step

`process_message` of `crawler/pipeline/distributed.py`: an item goes through the
pipeline, and the links of its page that the shared seen-set does not know are
enqueued.  A link is entered into the seen-set before it is enqueued, and neither is
taken back when an exception is raised.
-/

namespace WebCrawler

open Lib

/-- Whether the links of a page are followed. -/
def ProcessResult.expands (result : ProcessResult) (item : FrontierItem) (maxDepth : ℤ) : Bool :=
  result.fetched && !result.duplicate && decide (item.depth < maxDepth)

section ProcessMessage

variable {σ : Type} (process : FrontierItem → EStateM PyError σ ProcessResult)
  (enqueue : FrontierItem → EStateM PyError σ Unit) (checkAndAdd : String → EStateM PyError σ Bool)

/-- One turn of the loop over the links. -/
def offerLink (item : FrontierItem) (link : Link) : EStateM PyError σ Unit := do
  if ← checkAndAdd link.url then enqueue (child item link) else pure ()

/-- The loop over the links, if there is one. -/
def offerLinks (item : FrontierItem) (maxDepth : ℤ) (result : ProcessResult) :
    EStateM PyError σ Unit :=
  if result.expands item maxDepth then forM result.links (offerLink enqueue checkAndAdd item)
  else pure ()

/-- Fetches, parses and stores one URL and enqueues its new links. -/
def processMessage (item : FrontierItem) (maxDepth : ℤ) : EStateM PyError σ ProcessResult := do
  let result ← process item
  offerLinks enqueue checkAndAdd item maxDepth result
  pure result

end ProcessMessage

end WebCrawler
