import Mathlib.Tactic
import Colama.Lib.Cyclic

namespace Colama.Spice.Glz

open Lib

structure GlzDecodedImage where
  id : Nat
  windowHeadId : Nat
  deriving DecidableEq

/-- `images` is the cyclic array; entries from `imagesCapacity` on do not exist. -/
structure GlzDecoderWindow where
  images : Nat → Option GlzDecodedImage
  headIdx : Nat
  tailImageId : Nat
  imagesCapacity : Nat
  nImages : Nat
  missingList : List Nat

/-- Why a step is not taken: it has to wait, an assertion fails, a missing image is used, or the
array would grow beyond the sizes for which the sums of two `int` indices are in range. -/
inductive Stop
  | blocked
  | assertFailed
  | nullImage
  | tooLarge
  deriving DecidableEq

namespace GlzDecoderWindow

def initImagesCapacity : Nat := 100

def new : GlzDecoderWindow := ⟨fun _ => none, 0, 0, initImagesCapacity, 1, [0]⟩

def willOverflow (w : GlzDecoderWindow) (imageId relativeHeadId : Nat) : Bool :=
  if imageId ≤ w.tailImageId then false
  else match w.missingList with
    | [] => false
    | front :: _ => front < relativeHeadId

def calcImageWinIdx (w : GlzDecoderWindow) (imageId : Nat) : Nat :=
  (w.headIdx + w.nImages - 1 - (w.tailImageId - imageId)) % w.imagesCapacity

/-- `WIN_REALLOC_FACTOR` is 1.5, and the product is cut to an `int`. -/
def calcReallocSize (w : GlzDecoderWindow) (newTailImageId : Nat) : Nat :=
  if newTailImageId ≤ w.tailImageId then 0
  else
    let minCapacity := w.nImages + newTailImageId - w.tailImageId
    if 3 * minCapacity > 2 * w.imagesCapacity then 3 * max minCapacity w.imagesCapacity / 2 else 0

def realloc (w : GlzDecoderWindow) (size : Nat) : GlzDecoderWindow :=
  { w with
    images := fun i => if i < w.nImages then w.images ((i + w.headIdx) % w.imagesCapacity) else none
    headIdx := 0
    imagesCapacity := size }

def addPreDecodedImage (w : GlzDecoderWindow) (imageId : Nat) : Except Stop GlzDecoderWindow :=
  if imageId > w.tailImageId ∧ imageId - w.tailImageId + w.nImages < w.imagesCapacity then
    .ok { w with
      missingList := w.missingList ++ List.range' (w.tailImageId + 1) (imageId - w.tailImageId)
      nImages := w.nImages + (imageId - w.tailImageId)
      tailImageId := imageId }
  else .error .assertFailed

def addDecodedImage (w : GlzDecoderWindow) (image : GlzDecodedImage) : Except Stop GlzDecoderWindow :=
  if image.id ≤ w.tailImageId then
    .ok { w with images := Function.update w.images (w.calcImageWinIdx image.id) (some image) }
  else .error .assertFailed

/-- The loop that deletes the first `n` images. -/
def deleteImages (w : GlzDecoderWindow) : Nat → Nat → Option GlzDecodedImage
  | 0 => w.images
  | n + 1 => Function.update (w.deleteImages n) ((w.headIdx + n) % w.imagesCapacity) none

/-- A negative number of images is not removed but counted as a failed assertion. -/
def removeHead (w : GlzDecoderWindow) (newHeadImageId : Nat) : Except Stop GlzDecoderWindow :=
  match w.images w.headIdx with
  | none => .error .assertFailed
  | some image =>
    if newHeadImageId < image.id then .error .assertFailed
    else
      let nImagesRemove := newHeadImageId - image.id
      .ok { w with
        images := w.deleteImages nImagesRemove
        nImages := w.nImages - nImagesRemove
        headIdx := (w.headIdx + nImagesRemove) % w.imagesCapacity }

/-- The window head of the image that all images up to the first missing one have arrived with. -/
def newHeadImageId (w : GlzDecoderWindow) : Except Stop Nat :=
  match w.missingList with
  | [] =>
    match w.images (w.calcImageWinIdx w.tailImageId) with
    | none => .error .nullImage
    | some image => .ok image.windowHeadId
  | front :: _ =>
    match w.images (w.calcImageWinIdx (front - 1)) with
    | none => .error .assertFailed
    | some image => .ok image.windowHeadId

def narrowWindow (w : GlzDecoderWindow) (lastAdded : GlzDecodedImage) :
    Except Stop GlzDecoderWindow :=
  match w.missingList with
  | [] => .error .assertFailed
  | front :: missing =>
    if front ≠ lastAdded.id then .ok w
    else do
      let w := { w with
        missingList := missing.dropWhile fun id => (w.images (w.calcImageWinIdx id)).isSome }
      w.removeHead (← w.newHeadImageId)

/-- The index that `get_ref_pixel` reads. -/
def refImageIndex (w : GlzDecoderWindow) (decodedImageWinId distFromRefImage : Nat) : Nat :=
  if distFromRefImage ≤ decodedImageWinId then decodedImageWinId - distFromRefImage
  else w.imagesCapacity + decodedImageWinId - distFromRefImage

end GlzDecoderWindow

/-- How far the decoder of an image has come. It is `entered` once it has passed the test for an
overflow, and from then on may have to wait for the array to be free; it is `updated` between the
two halves of `pre_decode`, and `unlocked` between those of `post_decode`. -/
inductive Phase
  | idle
  | entered
  | updated (winId : Nat)
  | decoding (winId : Nat)
  | unlocked
  | done
  deriving DecidableEq

/-- The window, the decoder of each image, and the decoders that hold the read lock. -/
structure DecoderState where
  window : GlzDecoderWindow
  phase : Nat → Phase
  readers : List Nat

def DecoderState.new : DecoderState := ⟨.new, fun _ => .idle, []⟩

inductive DecoderAction
  | enter (i : Nat)
  | update (i : Nat)
  | finalize (i : Nat)
  | unlock (i : Nat)
  | post (i : Nat)

namespace DecoderState

def setPhase (s : DecoderState) (i : Nat) (p : Phase) : DecoderState :=
  { s with phase := Function.update s.phase i p }

/-- `pre_decode_update_window` behind its first loop. -/
def preDecodeUpdateWindow (s : DecoderState) (i : Nat) : Except Stop DecoderState := do
  let size := s.window.calcReallocSize i
  if size > 2 ^ 30 then throw .tooLarge
  if size ≠ 0 ∧ s.readers ≠ [] then throw .blocked
  let w := if size ≠ 0 then s.window.realloc size else s.window
  let w ← (if i > w.tailImageId then w.addPreDecodedImage i else .ok w)
  return ({ s with window := w }).setPhase i (.updated (w.calcImageWinIdx i))

def postDecodeUpdateWindow (s : DecoderState) (image : GlzDecodedImage) : Except Stop DecoderState := do
  let w ← s.window.addDecodedImage image
  let w ← w.narrowWindow image
  return ({ s with window := w }).setPhase image.id .done

/-- One step of the decoder of an image, where `head i` is the window head that image `i` names. -/
@[grind] def step (head : Nat → Nat) (s : DecoderState) : DecoderAction → Except Stop DecoderState
  | .enter i =>
    match s.phase i with
    | .idle => if s.window.willOverflow i (head i) then .error .blocked else .ok (s.setPhase i .entered)
    | _ => .error .blocked
  | .update i =>
    match s.phase i with
    | .entered => s.preDecodeUpdateWindow i
    | _ => .error .blocked
  | .finalize i =>
    match s.phase i with
    | .updated k => .ok ({ s with readers := i :: s.readers }.setPhase i (.decoding k))
    | _ => .error .blocked
  | .unlock i =>
    match s.phase i with
    | .decoding _ => .ok ({ s with readers := s.readers.erase i }.setPhase i .unlocked)
    | _ => .error .blocked
  | .post i =>
    match s.phase i with
    | .unlocked => s.postDecodeUpdateWindow ⟨i, head i⟩
    | _ => .error .blocked

end DecoderState

end Colama.Spice.Glz
