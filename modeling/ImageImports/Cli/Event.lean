import ImageImports.Cli.Host
import ImageImports.Cli.Log
import ImageImports.Image.Pass

/-!
# `ImageImports.Cli.Event`: what a run logs

A run logs what it is about to do, and a pass over a document logs what it does to every image.
-/

set_option autoImplicit false

namespace ImageImports.Cli

/-- An event of the run. -/
def runEvent (message : String) (fields : List (String × String)) : Log.Event :=
  { level := .debug, source := "mdx_images", message, fields }

/-- An event of the pass over a document. -/
def passEvent (level : Log.Level) (message : String) (fields : List (String × String)) :
    Log.Event :=
  { level, source := "mdx_images_core::rewrite", message, fields }

/-- The event for what a pass does to an image. -/
def imageEvent : ImageEvent → Log.Event
  | .imported url target name =>
      passEvent .debug "importing image"
        [("original", url), ("url", target), ("name", name)]
  | .untouched url => passEvent .trace "leaving image untouched" [("url", url)]

/-- Whether an image is imported. -/
def isImported : ImageEvent → Bool
  | .imported _ _ _ => true
  | .untouched _ => false

/-- The events of a pass over a document. -/
def passEvents (settings : PassSettings) (root : Mdast.Root) : List Log.Event :=
  let (images, imports) := imageEvents settings root
  images.map imageEvent ++
    [passEvent .debug "rewrote images"
      [("images", toString (images.countP isImported)), ("imports", toString imports)]]

/-! ### Logging -/

variable {m : Type → Type} [Monad m] [Host m]

/-- Logs an event if the filter lets it pass. -/
def log (filter : Log.Filter) (event : Log.Event) : m Unit :=
  if filter.passes event then Host.report event.line else pure ()

/-- Logs some events. -/
def logAll (filter : Log.Filter) : List Log.Event → m Unit
  | [] => return
  | event :: rest => do
      log filter event
      logAll filter rest

end ImageImports.Cli
