import Mathlib.Data.Finset.Sort
import Art.Base.BitMemoryRegion
import Art.Lib.CappedSet
import Art.Lib.KeyedFold

/-!
# Merging profiles

A `ProfileCompilationInfo` (libprofile/profile/profile_compilation_info.h, .cc) records, for each
dex file it tracks, the classes seen, the hot methods with an inline cache per dex pc, and a
bitmap of method flags. Dex files get profile indexes and extra descriptors (class descriptors
outside a dex file's own type ids) get indexes first-come-first-served, so `MergeWith` remaps
both before it merges the data.

The abstract view forgets the indexes: `ProfileCompilationInfo.view` maps each `(profile key,
checksum)` to a `DexView`, with classes as `ClassKey`s, inline caches in the capped-set lattice
(`InlineCache`: a class set, `many` for megamorphic, `unknown` for missing types), and the
methods of each bitmap flag.

* `mergeWith_view`: a merge that returns `true` leaves a well-formed profile whose view is the
  join of the two views; so merges that succeed commute, associate and are idempotent in the
  view (`mergeWith_view_comm`, `mergeWith_view_assoc`, `mergeWith_view_self`).
* `mergeWith_of_mismatch`: a version or checksum mismatch returns `false` before anything
  changes. The other `return false`s come after dex files or extra descriptors have been added
  (`mergeWith_adds_dex_file_on_failure`).
-/

namespace Art.Profile

open CappedSet

/-! ### The model -/

/-- `kIndividualInlineCacheSize`: an inline cache that would hold this many classes is
megamorphic. -/
def kIndividualInlineCacheSize : Nat := 5

/-- `DexFile::kDexNoIndex16`. -/
def kDexNoIndex16 : Nat := 0xFFFF

/-- `kMaxExtraDescriptors`. -/
def kMaxExtraDescriptors : Nat := kDexNoIndex16

/-- `MaxProfileIndex()`: the largest `ProfileIndexType`, a `uint16_t`. -/
def maxProfileIndex : Nat := 0xFFFF

/-- `MethodHotness::kFlagLastRegular`. -/
def kFlagLastRegular : Nat := 1 <<< 2

/-- `MethodHotness::kFlagLastBoot`. -/
def kFlagLastBoot : Nat := 1 <<< 15

/-- The last flag a profile of this kind keeps. -/
def lastFlag (isForBootImage : Bool) : Nat := if isForBootImage then kFlagLastBoot else kFlagLastRegular

/-- `FlagBitmapIndex`: `WhichPowerOf2(flag) - 1`, the flags after `kFlagHot` numbered from `0`. -/
def flagBitmapIndex (flag : Nat) : Nat := flag.log2 - 1

/-- `DexFileData::ComputeBitmapBits`. -/
def computeBitmapBits (isForBootImage : Bool) (numMethodIds : Nat) : Nat :=
  numMethodIds * (flagBitmapIndex (lastFlag isForBootImage) + 1)

/-- `DexFileData::ComputeBitmapStorage`: `RoundUp(bits, kBitsPerByte) / kBitsPerByte` bytes. -/
def computeBitmapStorage (isForBootImage : Bool) (numMethodIds : Nat) : Nat :=
  (computeBitmapBits isForBootImage numMethodIds + kBitsPerByte - 1) / kBitsPerByte

/-- `method_bitmap.LoadBit`: the bits of each byte of the storage, least significant first. -/
def loadBit (bitmapStorage : List (BitVec 8)) (bitOffset : Nat) : Bool :=
  (bitmapStorage.getD (bitOffset / kBitsPerByte) 0).getLsbD (bitOffset % kBitsPerByte)

/-- `DexPcData`: the inline cache at one dex pc; `classes` holds type indexes. -/
structure DexPcData where
  isMissingTypes : Bool
  isMegamorphic : Bool
  classes : Finset Nat
  deriving DecidableEq

namespace DexPcData

/-- A new `DexPcData`. -/
def empty : DexPcData := ⟨false, false, ∅⟩

/-- `DexPcData::AddClass`. -/
def addClass (d : DexPcData) (typeIdx : Nat) : DexPcData :=
  if d.isMegamorphic || d.isMissingTypes then d
  else if typeIdx ∈ d.classes then d
  -- adding the type makes the cache megamorphic
  else if kIndividualInlineCacheSize ≤ d.classes.card + 1 then
    { d with isMegamorphic := true, classes := ∅ }
  else { d with classes := insert typeIdx d.classes }

/-- `DexPcData::SetIsMegamorphic`. -/
def setIsMegamorphic (d : DexPcData) : DexPcData :=
  if d.isMissingTypes then d else { d with isMegamorphic := true, classes := ∅ }

/-- `DexPcData::SetIsMissingTypes`. -/
def setIsMissingTypes (d : DexPcData) : DexPcData :=
  { d with isMegamorphic := false, isMissingTypes := true, classes := ∅ }

end DexPcData

/-- `InlineCacheMap`: dex pc to inline cache. -/
abbrev InlineCacheMap := AList fun _ : Nat => DexPcData

/-- `MethodMap`: hot method index to its inline caches. -/
abbrev MethodMap := AList fun _ : Nat => InlineCacheMap

/-- The order an `ArenaSafeMap` keyed by `uint16_t` is visited in. -/
def inKeyOrder {β : Type} (m : AList fun _ : Nat => β) : List (Σ _ : Nat, β) :=
  entriesByKey (fun a b => decide (a ≤ b)) m

/-- `DexFileData`. `class_set` holds type indexes: those below `numTypeIds` are the dex file's
own, the others `numTypeIds` plus an index into the profile's extra descriptors. -/
structure DexFileData where
  profileKey : String
  profileIndex : Nat
  checksum : Nat
  methodMap : MethodMap
  classSet : Finset Nat
  numTypeIds : Nat
  numMethodIds : Nat
  bitmapStorage : List (BitVec 8)
  isForBootImage : Bool

/-- The `DexFileData` constructor: no classes, no methods, a zero bitmap. -/
def dexFileData (key : String) (locationChecksum index numTypes numMethods : Nat)
    (forBootImage : Bool) : DexFileData where
  profileKey := key
  profileIndex := index
  checksum := locationChecksum
  methodMap := ∅
  classSet := ∅
  numTypeIds := numTypes
  numMethodIds := numMethods
  bitmapStorage := List.replicate (computeBitmapStorage forBootImage numMethods) 0
  isForBootImage := forBootImage

namespace DexFileData

/-- `FindOrAddHotMethod`: the inline caches of a method, new ones for a method not yet hot;
`none` for an index past the dex file's methods. -/
def findOrAddHotMethod (d : DexFileData) (methodIndex : Nat) : Option InlineCacheMap :=
  if d.numMethodIds ≤ methodIndex then none else some ((d.methodMap.lookup methodIndex).getD ∅)

/-- `MergeBitmap`: or-ing the other bitmap in, byte by byte (the source checks that the two have
the same size). -/
def mergeBitmap (d other : DexFileData) : DexFileData :=
  { d with bitmapStorage := List.zipWith (· ||| ·) d.bitmapStorage other.bitmapStorage }

/-- The checks `GetOrAddDexFileData` makes on the dex file it found or added. -/
def agrees (d : DexFileData) (checksum numTypeIds numMethodIds : Nat) : Bool :=
  d.checksum == checksum && d.numTypeIds == numTypeIds && d.numMethodIds == numMethodIds

end DexFileData

/-- `FindOrAddDexPc`: the inline cache at a dex pc, a new one if there is none. -/
def findOrAddDexPc (inlineCache : InlineCacheMap) (dexPc : Nat) : DexPcData :=
  (inlineCache.lookup dexPc).getD .empty

/-- `ProfileCompilationInfo`: its version (regular or boot image), the data of its dex files in
profile index order (`info_`), and the extra descriptors. The source also keeps
`profile_key_map_` and `extra_descriptors_indexes_`, caches of `info_` and
`extra_descriptors_` that are searched here instead. -/
structure ProfileCompilationInfo where
  isForBootImage : Bool
  info : List DexFileData
  extraDescriptors : List String

namespace ProfileCompilationInfo

/-- `SameVersion`. -/
def sameVersion (p other : ProfileCompilationInfo) : Bool :=
  p.isForBootImage == other.isForBootImage

/-- `profile_key_map_.find(profile_key)`: the profile index of the dex file with that key. -/
def findProfileIndex (p : ProfileCompilationInfo) (profileKey : String) : Option Nat :=
  (p.info.map (·.profileKey)).idxOf? profileKey

/-- `FindDexData(profile_key, 0, /* verify_checksum= */ false)`. -/
def findDexData (p : ProfileCompilationInfo) (profileKey : String) : Option DexFileData :=
  (p.findProfileIndex profileKey).bind (p.info[·]?)

/-- `GetOrAddDexFileData`: the dex file with the key, added if there is none yet and the profile
has room; `none` when there is no room or the checksum or the sizes differ. -/
def getOrAddDexFileData (p : ProfileCompilationInfo) (profileKey : String)
    (checksum numTypeIds numMethodIds : Nat) : ProfileCompilationInfo × Option DexFileData :=
  let found : ProfileCompilationInfo × Option Nat :=
    match p.findProfileIndex profileKey with
    | some profileIndex => (p, some profileIndex)
    | none =>
      -- only a limited number of dex files can be profiled
      if p.info.length = maxProfileIndex then (p, none)
      else
        ({ p with info := p.info ++ [dexFileData profileKey checksum p.info.length numTypeIds
          numMethodIds p.isForBootImage] }, some p.info.length)
  match found with
  | (p, some profileIndex) =>
    (p, (p.info[profileIndex]?).filter (DexFileData.agrees · checksum numTypeIds numMethodIds))
  | (p, none) => (p, none)

/-- `AddExtraDescriptor`: the new index, or `kMaxExtraDescriptors` when the table is full. -/
def addExtraDescriptor (p : ProfileCompilationInfo) (extraDescriptor : String) :
    ProfileCompilationInfo × Nat :=
  let newExtraDescriptorIndex := p.extraDescriptors.length
  if newExtraDescriptorIndex = kMaxExtraDescriptors then (p, kMaxExtraDescriptors)
  else ({ p with extraDescriptors := p.extraDescriptors ++ [extraDescriptor] }, newExtraDescriptorIndex)

end ProfileCompilationInfo

/-! ### `MergeWith` -/

/-- The type index a class of the other profile gets in the receiver: a type id of the dex file
stays, an extra descriptor moves to `numTypeIds` plus its remapped index; `none` when that cannot
be represented. (An index past the remap is out of bounds in the source; no well-formed profile
has one.) -/
def remapTypeIndex (extraDescriptorsRemap : List Nat) (numTypeIds typeIndex : Nat) : Option Nat :=
  if typeIndex < numTypeIds then some typeIndex
  else
    let newExtraDescriptorIndex := extraDescriptorsRemap.getD (typeIndex - numTypeIds) 0
    if kDexNoIndex16 - numTypeIds ≤ newExtraDescriptorIndex then none
    else some (numTypeIds + newExtraDescriptorIndex)

/-- The classes of the other inline cache added one by one, each remapped first. -/
def addClasses (extraDescriptorsRemap : List Nat) (numTypeIds : Nat) (d : DexPcData)
    (classes : List Nat) : Except DexPcData DexPcData :=
  classes.foldlM (fun d typeIndex =>
    match remapTypeIndex extraDescriptorsRemap numTypeIds typeIndex with
    | none => .error d
    | some typeIndex => .ok (d.addClass typeIndex)) d

/-- One dex pc of the other method: missing types and megamorphic carry over, a class set is
added class by class. -/
def mergeDexPc (extraDescriptorsRemap : List Nat) (numTypeIds : Nat) (inlineCache : InlineCacheMap)
    (dexPc : Nat) (other : DexPcData) : Except InlineCacheMap InlineCacheMap :=
  let dexPcData := findOrAddDexPc inlineCache dexPc
  if other.isMissingTypes then .ok (inlineCache.insert dexPc dexPcData.setIsMissingTypes)
  else if other.isMegamorphic then .ok (inlineCache.insert dexPc dexPcData.setIsMegamorphic)
  else
    mapBoth (inlineCache.insert dexPc)
      (addClasses extraDescriptorsRemap numTypeIds dexPcData (other.classes.sort (· ≤ ·)))

namespace DexFileData

/-- One class of the other dex file named by an extra descriptor: remapped, then inserted. -/
def addExtraClass (extraDescriptorsRemap : List Nat) (d : DexFileData) (typeIndex : Nat) :
    Except DexFileData DexFileData :=
  match remapTypeIndex extraDescriptorsRemap d.numTypeIds typeIndex with
  | none => .error d
  | some typeIndex => .ok { d with classSet := insert typeIndex d.classSet }

/-- The classes of the other dex file: its own type ids at once, then the extra descriptors one
by one in index order. -/
def mergeClasses (extraDescriptorsRemap : List Nat) (d : DexFileData) (otherClassSet : Finset Nat) :
    Except DexFileData DexFileData :=
  let d := { d with classSet := d.classSet ∪ otherClassSet.filter (· < d.numTypeIds) }
  ((otherClassSet.filter (d.numTypeIds ≤ ·)).sort (· ≤ ·)).foldlM (addExtraClass extraDescriptorsRemap) d

/-- One hot method of the other dex file and its inline caches. -/
def mergeMethod (extraDescriptorsRemap : List Nat) (d : DexFileData) (methodIndex : Nat)
    (otherInlineCache : InlineCacheMap) : Except DexFileData DexFileData :=
  match d.findOrAddHotMethod methodIndex with
  | none => .error d
  | some inlineCache =>
    mapBoth (fun inlineCache => { d with methodMap := d.methodMap.insert methodIndex inlineCache })
      ((inKeyOrder otherInlineCache).foldlM
        (fun inlineCache e => mergeDexPc extraDescriptorsRemap d.numTypeIds inlineCache e.1 e.2)
        inlineCache)

/-- The body of `MergeWith`'s last loop for one dex file: classes, methods with their inline
caches, then the bitmap. -/
def mergeWith (extraDescriptorsRemap : List Nat) (mergeClasses : Bool) (d other : DexFileData) :
    Except DexFileData DexFileData := do
  let d ← if mergeClasses then d.mergeClasses extraDescriptorsRemap other.classSet else pure d
  let d ← (inKeyOrder other.methodMap).foldlM
    (fun d e => d.mergeMethod extraDescriptorsRemap e.1 e.2) d
  pure (d.mergeBitmap other)

end DexFileData

namespace ProfileCompilationInfo

/-- A dex file of the other profile whose key the receiver has with another checksum. -/
def checksumMismatch (p : ProfileCompilationInfo) (other : DexFileData) : Bool :=
  match p.findDexData other.profileKey with
  | some d => d.checksum != other.checksum
  | none => false

/-- The first loop's body: the receiver's dex file for one of the other's, added if new, and its
profile index recorded. -/
def remapDexFile (acc : ProfileCompilationInfo × List Nat) (other : DexFileData) :
    Except ProfileCompilationInfo (ProfileCompilationInfo × List Nat) :=
  match acc.1.getOrAddDexFileData other.profileKey other.checksum other.numTypeIds
      other.numMethodIds with
  | (p, none) => .error p
  | (p, some d) => .ok (p, acc.2 ++ [d.profileIndex])

/-- The first loop: maps the other's profile indexes to the receiver's. -/
def remapDexFiles (p : ProfileCompilationInfo) (others : List DexFileData) :
    Except ProfileCompilationInfo (ProfileCompilationInfo × List Nat) :=
  others.foldlM remapDexFile (p, [])

/-- The second loop's body: the receiver's index for one extra descriptor, added if new. -/
def remapExtraDescriptor (acc : ProfileCompilationInfo × List Nat) (otherExtraDescriptor : String) :
    Except ProfileCompilationInfo (ProfileCompilationInfo × List Nat) :=
  match acc.1.extraDescriptors.idxOf? otherExtraDescriptor with
  | some index => .ok (acc.1, acc.2 ++ [index])
  | none =>
    let (p, extraDescriptorIndex) := acc.1.addExtraDescriptor otherExtraDescriptor
    -- too many extra descriptors
    if extraDescriptorIndex = kMaxExtraDescriptors then .error p
    else .ok (p, acc.2 ++ [extraDescriptorIndex])

/-- The second loop: maps the other's extra descriptor indexes to the receiver's. -/
def remapExtraDescriptors (p : ProfileCompilationInfo) (otherExtraDescriptors : List String) :
    Except ProfileCompilationInfo (ProfileCompilationInfo × List Nat) :=
  otherExtraDescriptors.foldlM remapExtraDescriptor (p, [])

/-- The last loop's body: one dex file of the other merged into the receiver's at its remapped
index. (That index is always in range; out of range it would be undefined in the source.) -/
def mergeDexFile (dexProfileIndexRemap extraDescriptorsRemap : List Nat) (mergeClasses : Bool)
    (p : ProfileCompilationInfo) (other : DexFileData) :
    Except ProfileCompilationInfo ProfileCompilationInfo :=
  let index := dexProfileIndexRemap.getD other.profileIndex 0
  match p.info[index]? with
  | none => .error p
  | some d =>
    mapBoth (fun d => { p with info := p.info.set index d })
      (d.mergeWith extraDescriptorsRemap mergeClasses other)

/-- The last loop. -/
def mergeDexFiles (dexProfileIndexRemap extraDescriptorsRemap : List Nat) (mergeClasses : Bool)
    (p : ProfileCompilationInfo) (others : List DexFileData) :
    Except ProfileCompilationInfo ProfileCompilationInfo :=
  others.foldlM (mergeDexFile dexProfileIndexRemap extraDescriptorsRemap mergeClasses) p

/-- `MergeWith(other, merge_classes)`: whether it succeeded, and the receiver after it. -/
def mergeWith (p other : ProfileCompilationInfo) (mergeClasses : Bool) :
    Bool × ProfileCompilationInfo :=
  if !p.sameVersion other then (false, p)
  -- all checksums are verified first, so that a mismatch adds nothing
  else if other.info.any p.checksumMismatch then (false, p)
  else
    let merged := do
      let (p, dexProfileIndexRemap) ← p.remapDexFiles other.info
      let (p, extraDescriptorsRemap) ← p.remapExtraDescriptors other.extraDescriptors
      p.mergeDexFiles dexProfileIndexRemap extraDescriptorsRemap mergeClasses other.info
    match merged with
    | .ok p => (true, p)
    | .error p => (false, p)

end ProfileCompilationInfo

/-! ### The abstract view -/

/-- A class as a profile means it: a type id of its dex file, or an extra descriptor. -/
inductive ClassKey where
  | typeId (index : Nat)
  | extraDescriptor (descriptor : String)
  deriving DecidableEq

/-- The class a type index of a dex file with `numTypeIds` type ids names. -/
def classKey (numTypeIds : Nat) (extraDescriptors : List String) (typeIndex : Nat) : ClassKey :=
  if typeIndex < numTypeIds then .typeId typeIndex
  else .extraDescriptor (extraDescriptors.getD (typeIndex - numTypeIds) "")

/-- An inline cache: fewer than `kIndividualInlineCacheSize` classes, megamorphic (`many`), or
missing types (`unknown`). -/
abbrev InlineCache := CappedSet ClassKey kIndividualInlineCacheSize

instance : NeZero kIndividualInlineCacheSize := ⟨by decide⟩

/-- The inline cache a `DexPcData` holds, its type indexes read with `key`. -/
def DexPcData.view (key : Nat → ClassKey) (d : DexPcData) : InlineCache :=
  if d.isMissingTypes then .unknown
  else if d.isMegamorphic then .many
  else .ofFinset (d.classes.image key)

/-- What a profile knows of one dex file: its classes, its hot methods with their inline caches
by dex pc, and the methods of each bitmap flag (numbered as `FlagBitmapIndex` numbers them). -/
@[ext] structure DexView where
  classes : Finset ClassKey
  methods : Nat → WithBot (Nat → WithBot InlineCache)
  flags : Nat → Finset Nat

namespace DexView

instance : PartialOrder DexView where
  le a b := a.classes ⊆ b.classes ∧ a.methods ≤ b.methods ∧ a.flags ≤ b.flags
  le_refl _ := ⟨Finset.Subset.refl _, le_rfl, le_rfl⟩
  le_trans _ _ _ h k := ⟨h.1.trans k.1, h.2.1.trans k.2.1, h.2.2.trans k.2.2⟩
  le_antisymm _ _ h k :=
    DexView.ext (Finset.Subset.antisymm h.1 k.1) (le_antisymm h.2.1 k.2.1) (le_antisymm h.2.2 k.2.2)

instance : SemilatticeSup DexView where
  sup a b := ⟨a.classes ∪ b.classes, a.methods ⊔ b.methods, a.flags ⊔ b.flags⟩
  le_sup_left _ _ := ⟨Finset.subset_union_left, le_sup_left, le_sup_left⟩
  le_sup_right _ _ := ⟨Finset.subset_union_right, le_sup_right, le_sup_right⟩
  sup_le _ _ _ h k := ⟨Finset.union_subset h.1 k.1, sup_le h.2.1 k.2.1, sup_le h.2.2 k.2.2⟩

instance : OrderBot DexView where
  bot := ⟨∅, ⊥, ⊥⟩
  bot_le _ := ⟨Finset.empty_subset _, bot_le, bot_le⟩

@[simp] theorem sup_classes (a b : DexView) : (a ⊔ b).classes = a.classes ∪ b.classes := rfl
@[simp] theorem sup_methods (a b : DexView) : (a ⊔ b).methods = a.methods ⊔ b.methods := rfl
@[simp] theorem sup_flags (a b : DexView) : (a ⊔ b).flags = a.flags ⊔ b.flags := rfl
@[simp] theorem bot_classes : (⊥ : DexView).classes = ∅ := rfl
@[simp] theorem bot_methods : (⊥ : DexView).methods = ⊥ := rfl
@[simp] theorem bot_flags : (⊥ : DexView).flags = ⊥ := rfl

end DexView

/-- The number of flags the method bitmap has room for. -/
def numBitmapFlags (isForBootImage : Bool) : Nat := flagBitmapIndex (lastFlag isForBootImage) + 1

/-- The view of a dex file's data, extra descriptors read from the profile's table. -/
def DexFileData.view (extraDescriptors : List String) (d : DexFileData) : DexView where
  classes := d.classSet.image (classKey d.numTypeIds extraDescriptors)
  methods :=
    lookupView (lookupView (DexPcData.view (classKey d.numTypeIds extraDescriptors))) d.methodMap
  flags flag :=
    if flag < numBitmapFlags d.isForBootImage then
      (Finset.range d.numMethodIds).filter fun m => loadBit d.bitmapStorage (m + flag * d.numMethodIds)
    else ∅

/-- Where a dex file sits in the view of a profile. -/
def DexFileData.viewKey (d : DexFileData) : String × Nat := (d.profileKey, d.checksum)

/-- The view of a profile: for each `(profile key, checksum)`, the view of its dex file there. -/
def ProfileCompilationInfo.view (p : ProfileCompilationInfo) : String × Nat → WithBot DexView :=
  keyedContribution DexFileData.viewKey (fun d => ↑(d.view p.extraDescriptors)) p.info

/-! ### Well-formed profiles -/

/-- The classes of an inline cache are type indexes below `bound`. -/
structure DexPcData.Valid (bound : Nat) (d : DexPcData) : Prop where
  lt_bound : ∀ t ∈ d.classes, t < bound

/-- A dex file's data names only its own type ids and extra descriptors of the table, only its
own methods, and has a bitmap of the size its constructor gives it. -/
structure DexFileData.Valid (numExtraDescriptors : Nat) (d : DexFileData) : Prop where
  classSet_lt : ∀ t ∈ d.classSet, t < d.numTypeIds + numExtraDescriptors
  methodIndex_lt : ∀ m ic, d.methodMap.lookup m = some ic → m < d.numMethodIds
  dexPc_valid : ∀ m ic pc dexPcData, d.methodMap.lookup m = some ic →
    ic.lookup pc = some dexPcData → dexPcData.Valid (d.numTypeIds + numExtraDescriptors)
  length_bitmapStorage : d.bitmapStorage.length = computeBitmapStorage d.isForBootImage d.numMethodIds

/-- A profile as the source keeps it: one dex file per key, each at its own profile index, of the
profile's kind; distinct extra descriptors; valid data. -/
structure ProfileCompilationInfo.WellFormed (p : ProfileCompilationInfo) : Prop where
  nodup_profileKey : (p.info.map (·.profileKey)).Nodup
  profileIndex_eq : p.info.map (·.profileIndex) = List.range p.info.length
  nodup_extraDescriptors : p.extraDescriptors.Nodup
  isForBootImage_eq : ∀ d ∈ p.info, d.isForBootImage = p.isForBootImage
  valid : ∀ d ∈ p.info, d.Valid p.extraDescriptors.length

/-! ### Inline caches -/

section InlineCaches

variable {numTypeIds : Nat} {extraDescriptors : List String}

theorem classKey_injOn (hnd : extraDescriptors.Nodup) :
    Set.InjOn (classKey numTypeIds extraDescriptors) {t | t < numTypeIds + extraDescriptors.length} := by
  intro a ha b hb h
  simp only [Set.mem_ofPred_eq] at ha hb
  unfold classKey at h
  split_ifs at h with hna hnb
  · exact ClassKey.typeId.inj h
  · rw [List.getD_eq_getElem _ _ (by omega), List.getD_eq_getElem _ _ (by omega),
      ClassKey.extraDescriptor.injEq, hnd.getElem_inj_iff] at h
    omega

theorem card_image_classKey (hnd : extraDescriptors.Nodup) {s : Finset Nat}
    (hs : ∀ t ∈ s, t < numTypeIds + extraDescriptors.length) :
    (s.image (classKey numTypeIds extraDescriptors)).card = s.card :=
  Finset.card_image_of_injOn ((classKey_injOn hnd).mono fun t ht => hs t ht)

theorem DexPcData.view_addClass (hnd : extraDescriptors.Nodup) {d : DexPcData}
    (hd : d.Valid (numTypeIds + extraDescriptors.length)) {t : Nat}
    (ht : t < numTypeIds + extraDescriptors.length) :
    (d.addClass t).view (classKey numTypeIds extraDescriptors) =
      d.view (classKey numTypeIds extraDescriptors) ⊔ ofFinset {classKey numTypeIds extraDescriptors t} := by
  unfold addClass
  split_ifs with hflag hmem hfull
  · -- a megamorphic or missing-types cache takes no more classes
    cases hm : d.isMissingTypes <;> cases hg : d.isMegamorphic <;> simp_all [view]
  all_goals
    simp only [Bool.or_eq_true, not_or, Bool.not_eq_true] at hflag
    simp only [view, hflag.1, hflag.2, Bool.false_eq_true, ↓reduceIte, ← ofFinset_union]
  · rw [Finset.union_eq_left.2 (Finset.singleton_subset_iff.2 (Finset.mem_image_of_mem _ hmem))]
  · -- the union reaches the cap, as the new cache would
    rw [ofFinset_of_le]
    rw [Finset.union_singleton, ← Finset.image_insert,
      card_image_classKey hnd (fun u hu => ?_), Finset.card_insert_of_notMem hmem]
    · exact hfull
    · rcases Finset.mem_insert.1 hu with rfl | hu
      exacts [ht, hd.lt_bound u hu]
  · rw [Finset.image_insert, Finset.union_singleton]

theorem DexPcData.valid_addClass {bound : Nat} {d : DexPcData} (hd : d.Valid bound) {t : Nat}
    (ht : t < bound) : (d.addClass t).Valid bound := by
  constructor
  intro u hu
  unfold addClass at hu
  split_ifs at hu
  · exact hd.lt_bound u hu
  · exact hd.lt_bound u hu
  · simp at hu
  · rcases Finset.mem_insert.1 hu with rfl | hu
    exacts [ht, hd.lt_bound u hu]

theorem DexPcData.view_setIsMegamorphic (key : Nat → ClassKey) (d : DexPcData) :
    d.setIsMegamorphic.view key = d.view key ⊔ many := by
  rcases d with ⟨_ | _, _ | _, classes⟩ <;> simp [setIsMegamorphic, view]

theorem DexPcData.view_setIsMissingTypes (key : Nat → ClassKey) (d : DexPcData) :
    d.setIsMissingTypes.view key = d.view key ⊔ unknown := by
  simp [setIsMissingTypes, view]

@[simp] theorem DexPcData.view_empty (key : Nat → ClassKey) : DexPcData.empty.view key = ⊥ := by
  simp [empty, view, ofFinset_empty]

theorem DexPcData.valid_of_classes_eq_empty {bound : Nat} {d : DexPcData} (h : d.classes = ∅) :
    d.Valid bound :=
  ⟨fun t ht => by simp [h] at ht⟩

end InlineCaches

/-! ### Remapping -/

/-- An inline cache map whose caches name type indexes below `bound`. -/
def ValidInlineCache (bound : Nat) (inlineCache : InlineCacheMap) : Prop :=
  ∀ pc d, inlineCache.lookup pc = some d → d.Valid bound

/-- `remap` sends the index of each extra descriptor of `src` to its index in `dst`. -/
def RemapsExtraDescriptors (remap : List Nat) (src dst : List String) : Prop :=
  ∀ i (h : i < src.length), ∃ j, remap[i]? = some j ∧ dst[j]? = some src[i]

section Remap

variable {remap : List Nat} {src dst : List String} {numTypeIds : Nat}

/-- A remapped type index names the same class in the receiver. -/
theorem remapTypeIndex_spec (hr : RemapsExtraDescriptors remap src dst) {t t' : Nat}
    (ht : t < numTypeIds + src.length) (h : remapTypeIndex remap numTypeIds t = some t') :
    t' < numTypeIds + dst.length ∧ classKey numTypeIds dst t' = classKey numTypeIds src t := by
  by_cases hlt : t < numTypeIds
  · rw [remapTypeIndex, if_pos hlt, Option.some.injEq] at h
    subst h
    exact ⟨by omega, by simp [classKey, hlt]⟩
  · -- an extra descriptor: its remapped index names the same descriptor
    obtain ⟨j, hj, hdst⟩ := hr (t - numTypeIds) (by omega)
    have hjlt : j < dst.length := (List.getElem?_eq_some_iff.1 hdst).1
    have hget : remap.getD (t - numTypeIds) 0 = j := by
      rw [List.getD_eq_getElem?_getD, hj, Option.getD_some]
    rw [remapTypeIndex, if_neg hlt] at h
    simp only [hget] at h
    split_ifs at h
    rw [Option.some.injEq] at h
    subst h
    refine ⟨by omega, ?_⟩
    simp only [classKey, hlt, if_false, show ¬ numTypeIds + j < numTypeIds by omega,
      Nat.add_sub_cancel_left, List.getD_eq_getElem?_getD, hdst, Option.getD_some,
      List.getElem?_eq_getElem (show t - numTypeIds < src.length by omega)]

/-- Adding the remapped classes one by one joins their set into the cache. -/
theorem addClasses_spec (hnd : dst.Nodup) (hr : RemapsExtraDescriptors remap src dst) :
    ∀ {l : List Nat} {d d' : DexPcData}, (∀ t ∈ l, t < numTypeIds + src.length) →
      d.Valid (numTypeIds + dst.length) → addClasses remap numTypeIds d l = .ok d' →
      d'.Valid (numTypeIds + dst.length) ∧
        d'.view (classKey numTypeIds dst) =
          d.view (classKey numTypeIds dst) ⊔ ofFinset ((l.map (classKey numTypeIds src)).toFinset)
  | [], d, d', _, hd, h => by
    cases h
    exact ⟨hd, by simp [ofFinset_empty]⟩
  | t :: l, d, d', hl, hd, h => by
    obtain ⟨d₁, h₁, hrest⟩ := foldlM_cons_eq_ok.1 h
    cases hremap : remapTypeIndex remap numTypeIds t with
    | none => simp [hremap] at h₁
    | some t' =>
      simp only [hremap, Except.ok.injEq] at h₁
      subst h₁
      obtain ⟨ht', hkey⟩ := remapTypeIndex_spec hr (hl t List.mem_cons_self) hremap
      obtain ⟨hd', hview⟩ := addClasses_spec hnd hr (fun u hu => hl u (List.mem_cons_of_mem t hu))
        (DexPcData.valid_addClass hd ht') hrest
      refine ⟨hd', ?_⟩
      rw [hview, DexPcData.view_addClass hnd hd ht', hkey, sup_assoc, ← ofFinset_union,
        List.map_cons, List.toFinset_cons, Finset.insert_eq]

/-- The inline cache at one dex pc of the other method, merged in. -/
theorem mergeDexPc_spec (hnd : dst.Nodup) (hr : RemapsExtraDescriptors remap src dst)
    {inlineCache inlineCache' : InlineCacheMap} {dexPc : Nat} {other : DexPcData}
    (hvalid : ValidInlineCache (numTypeIds + dst.length) inlineCache)
    (hother : other.Valid (numTypeIds + src.length))
    (h : mergeDexPc remap numTypeIds inlineCache dexPc other = .ok inlineCache') :
    ValidInlineCache (numTypeIds + dst.length) inlineCache' ∧
      lookupView (DexPcData.view (classKey numTypeIds dst)) inlineCache' =
        Function.update (lookupView (DexPcData.view (classKey numTypeIds dst)) inlineCache) dexPc
          (lookupView (DexPcData.view (classKey numTypeIds dst)) inlineCache dexPc ⊔
            ↑(other.view (classKey numTypeIds src))) := by
  have hd : (findOrAddDexPc inlineCache dexPc).Valid (numTypeIds + dst.length) := by
    unfold findOrAddDexPc
    cases hl : inlineCache.lookup dexPc with
    | none => exact DexPcData.valid_of_classes_eq_empty rfl
    | some d => exact hvalid dexPc d hl
  -- each branch stores the cache at `dexPc` joined with the other one
  obtain ⟨d', hd', hview, rfl⟩ : ∃ d', d'.Valid (numTypeIds + dst.length) ∧
      d'.view (classKey numTypeIds dst) = (findOrAddDexPc inlineCache dexPc).view
        (classKey numTypeIds dst) ⊔ other.view (classKey numTypeIds src) ∧
      inlineCache' = inlineCache.insert dexPc d' := by
    unfold mergeDexPc at h
    split_ifs at h with hmissing hmega
    · cases h
      have hv : other.view (classKey numTypeIds src) = unknown := by simp [DexPcData.view, hmissing]
      exact ⟨_, DexPcData.valid_of_classes_eq_empty rfl,
        by rw [hv, DexPcData.view_setIsMissingTypes], rfl⟩
    · cases h
      have hv : other.view (classKey numTypeIds src) = many := by
        simp [DexPcData.view, hmissing, hmega]
      refine ⟨_, ?_, by rw [hv, DexPcData.view_setIsMegamorphic], rfl⟩
      unfold DexPcData.setIsMegamorphic
      split_ifs
      exacts [hd, DexPcData.valid_of_classes_eq_empty rfl]
    · obtain ⟨d', hadd, rfl⟩ := mapBoth_eq_ok.1 h
      have hsorted : ∀ t ∈ other.classes.sort (· ≤ ·), t < numTypeIds + src.length :=
        fun t ht => hother.lt_bound t ((Finset.mem_sort _).1 ht)
      obtain ⟨hd', hview⟩ := addClasses_spec hnd hr hsorted hd hadd
      have hset : ((other.classes.sort (· ≤ ·)).map (classKey numTypeIds src)).toFinset =
          other.classes.image (classKey numTypeIds src) := by
        ext; simp [Finset.mem_sort]
      refine ⟨d', hd', ?_, rfl⟩
      rw [hview, hset]
      simp [DexPcData.view, hmissing, hmega]
  refine ⟨fun pc d hl => ?_, ?_⟩
  · by_cases hpc : pc = dexPc
    · subst hpc
      rw [AList.lookup_insert] at hl
      cases hl
      exact hd'
    · rw [AList.lookup_insert_ne hpc] at hl
      exact hvalid pc d hl
  · rw [lookupView_insert, hview, findOrAddDexPc, lookupView_sup_coe (DexPcData.view_empty _)]

theorem validInlineCache_of_mem {bound : Nat} {inlineCache : InlineCacheMap}
    (h : ValidInlineCache bound inlineCache) {e : Σ _ : Nat, DexPcData}
    (he : e ∈ inKeyOrder inlineCache) : e.2.Valid bound :=
  h e.1 e.2 (AList.mem_lookup_iff.2 ((perm_entriesByKey _ _).mem_iff.1 he))

/-- The inline caches of the other method, merged in dex pc by dex pc. -/
theorem mergeInlineCaches_spec (hnd : dst.Nodup) (hr : RemapsExtraDescriptors remap src dst)
    {inlineCache inlineCache' other : InlineCacheMap}
    (hvalid : ValidInlineCache (numTypeIds + dst.length) inlineCache)
    (hother : ValidInlineCache (numTypeIds + src.length) other)
    (h : (inKeyOrder other).foldlM
      (fun inlineCache e => mergeDexPc remap numTypeIds inlineCache e.1 e.2) inlineCache =
        .ok inlineCache') :
    ValidInlineCache (numTypeIds + dst.length) inlineCache' ∧
      lookupView (DexPcData.view (classKey numTypeIds dst)) inlineCache' =
        lookupView (DexPcData.view (classKey numTypeIds dst)) inlineCache ⊔
          lookupView (DexPcData.view (classKey numTypeIds src)) other := by
  have := foldlM_keyed_sup (ValidInlineCache (numTypeIds + dst.length))
    (fun e => e.2.Valid (numTypeIds + src.length))
    (lookupView (DexPcData.view (classKey numTypeIds dst))) Sigma.fst
    (fun e => ↑(e.2.view (classKey numTypeIds src)))
    (fun inlineCache e => mergeDexPc remap numTypeIds inlineCache e.1 e.2)
    (fun _ _ _ hs he hstep => mergeDexPc_spec hnd hr hs he hstep)
    (nodup_map_fst_entriesByKey _ _) (fun e he => validInlineCache_of_mem hother he) hvalid h
  rwa [keyedContribution_entriesByKey] at this

end Remap

/-! ### One dex file -/

section DexFile

variable {remap : List Nat} {src dst : List String}

namespace DexFileData

theorem valid_of_methodMap {n : Nat} {d : DexFileData} (hd : d.Valid n) {methodMap : MethodMap}
    (hm : ∀ m ic, methodMap.lookup m = some ic → m < d.numMethodIds ∧
      ValidInlineCache (d.numTypeIds + n) ic) :
    ({ d with methodMap } : DexFileData).Valid n where
  classSet_lt := hd.classSet_lt
  methodIndex_lt m ic h := (hm m ic h).1
  dexPc_valid m ic pc x h hx := (hm m ic h).2 pc x hx
  length_bitmapStorage := hd.length_bitmapStorage

/-- One method of the other dex file merged in: its inline caches are joined into the
receiver's entry for it, which is added if the method was not hot yet. -/
theorem mergeMethod_spec (hnd : dst.Nodup) (hr : RemapsExtraDescriptors remap src dst)
    {d d' : DexFileData} {methodIndex : Nat} {other : InlineCacheMap}
    (hd : d.Valid dst.length) (hm : methodIndex < d.numMethodIds)
    (hother : ValidInlineCache (d.numTypeIds + src.length) other)
    (h : d.mergeMethod remap methodIndex other = .ok d') :
    (∃ methodMap, d' = { d with methodMap }) ∧ d'.Valid dst.length ∧
      (d'.view dst).methods = Function.update (d.view dst).methods methodIndex
        ((d.view dst).methods methodIndex ⊔
          ↑(lookupView (DexPcData.view (classKey d.numTypeIds src)) other)) := by
  unfold mergeMethod findOrAddHotMethod at h
  rw [if_neg (Nat.not_le.2 hm)] at h
  obtain ⟨inlineCache', hfold, rfl⟩ := mapBoth_eq_ok.1 h
  have hic : ValidInlineCache (d.numTypeIds + dst.length)
      ((d.methodMap.lookup methodIndex).getD ∅) := by
    cases hl : d.methodMap.lookup methodIndex with
    | none => intro pc x hx; simp at hx
    | some ic => exact fun pc x hx => hd.dexPc_valid methodIndex ic pc x hl hx
  obtain ⟨hic', hview⟩ := mergeInlineCaches_spec hnd hr hic hother hfold
  refine ⟨⟨_, rfl⟩, valid_of_methodMap hd fun m ic hl => ?_, ?_⟩
  · by_cases hmi : m = methodIndex
    · subst hmi
      rw [AList.lookup_insert, Option.some.injEq] at hl
      exact ⟨hm, hl ▸ hic'⟩
    · rw [AList.lookup_insert_ne hmi] at hl
      exact ⟨hd.methodIndex_lt m ic hl, fun pc x hx => hd.dexPc_valid m ic pc x hl hx⟩
  · simp only [DexFileData.view]
    rw [lookupView_insert, hview, lookupView_sup_coe (lookupView_empty _)]

/-- The methods of the other dex file merged in, in method index order. -/
theorem mergeMethods_spec (hnd : dst.Nodup) (hr : RemapsExtraDescriptors remap src dst)
    {d d' other : DexFileData} (hd : d.Valid dst.length) (hother : other.Valid src.length)
    (htypes : d.numTypeIds = other.numTypeIds) (hmethods : d.numMethodIds = other.numMethodIds)
    (h : (inKeyOrder other.methodMap).foldlM (fun d e => d.mergeMethod remap e.1 e.2) d = .ok d') :
    (∃ methodMap, d' = { d with methodMap }) ∧ d'.Valid dst.length ∧
      (d'.view dst).methods = (d.view dst).methods ⊔ (other.view src).methods := by
  -- the invariant: only the method map has changed, and the data stays valid
  have := foldlM_keyed_sup
    (fun d₁ : DexFileData => (∃ methodMap, d₁ = { d with methodMap }) ∧ d₁.Valid dst.length)
    (fun e : Σ _ : Nat, InlineCacheMap => e.1 < d.numMethodIds ∧
      ValidInlineCache (d.numTypeIds + src.length) e.2)
    (fun d₁ => (d₁.view dst).methods) Sigma.fst
    (fun e => ↑(lookupView (DexPcData.view (classKey d.numTypeIds src)) e.2))
    (fun d₁ e => d₁.mergeMethod remap e.1 e.2)
    (fun d₁ e d₂ ⟨⟨methodMap, hd₁⟩, hvalid⟩ ⟨hm, hic⟩ hstep => by
      subst hd₁
      obtain ⟨⟨methodMap', rfl⟩, hvalid', hview⟩ := mergeMethod_spec hnd hr hvalid hm hic hstep
      exact ⟨⟨⟨methodMap', rfl⟩, hvalid'⟩, hview⟩)
    (nodup_map_fst_entriesByKey _ _)
    (fun e he => by
      have hl := AList.mem_lookup_iff.2 ((perm_entriesByKey _ _).mem_iff.1 he)
      exact ⟨hmethods ▸ hother.methodIndex_lt e.1 e.2 hl,
        fun pc x hx => htypes ▸ hother.dexPc_valid e.1 e.2 pc x hl hx⟩)
    ⟨⟨d.methodMap, rfl⟩, hd⟩ h
  obtain ⟨hframe, hview⟩ := this
  refine ⟨hframe.1, hframe.2, ?_⟩
  rw [hview, keyedContribution_entriesByKey]
  simp only [DexFileData.view, htypes]

/-- The classes of the other dex file merged in: its own type ids, and its extra descriptors
under their new indexes. -/
theorem foldlM_addExtraClass_spec (hr : RemapsExtraDescriptors remap src dst) :
    ∀ {l : List Nat} {d d' : DexFileData}, (∀ t ∈ l, t < d.numTypeIds + src.length) →
      d.Valid dst.length → l.foldlM (addExtraClass remap) d = .ok d' →
      (∃ classSet, d' = { d with classSet }) ∧ d'.Valid dst.length ∧
        d'.classSet.image (classKey d.numTypeIds dst) =
          d.classSet.image (classKey d.numTypeIds dst) ∪ (l.map (classKey d.numTypeIds src)).toFinset
  | [], d, d', _, hd, h => by
    cases h
    exact ⟨⟨d.classSet, rfl⟩, hd, by simp⟩
  | t :: l, d, d', hl, hd, h => by
    obtain ⟨d₁, h₁, hrest⟩ := foldlM_cons_eq_ok.1 h
    unfold addExtraClass at h₁
    cases hremap : remapTypeIndex remap d.numTypeIds t with
    | none => simp [hremap] at h₁
    | some t' =>
      simp only [hremap, Except.ok.injEq] at h₁
      subst h₁
      obtain ⟨ht', hkey⟩ := remapTypeIndex_spec hr (hl t List.mem_cons_self) hremap
      have hd₁ : ({ d with classSet := insert t' d.classSet } : DexFileData).Valid dst.length :=
        { hd with
          classSet_lt := fun u hu => by
            rcases Finset.mem_insert.1 hu with rfl | hu
            exacts [ht', hd.classSet_lt u hu] }
      obtain ⟨⟨classSet, rfl⟩, hd', hview⟩ :=
        foldlM_addExtraClass_spec (d := { d with classSet := insert t' d.classSet }) hr
          (fun u hu => hl u (List.mem_cons_of_mem t hu)) hd₁ hrest
      refine ⟨⟨classSet, rfl⟩, hd', ?_⟩
      rw [hview, Finset.image_insert, hkey, List.map_cons, List.toFinset_cons,
        Finset.insert_union, Finset.union_insert]

theorem mergeClasses_spec (hr : RemapsExtraDescriptors remap src dst) {d d' : DexFileData}
    {otherClassSet : Finset Nat} (hd : d.Valid dst.length)
    (hother : ∀ t ∈ otherClassSet, t < d.numTypeIds + src.length)
    (h : d.mergeClasses remap otherClassSet = .ok d') :
    (∃ classSet, d' = { d with classSet }) ∧ d'.Valid dst.length ∧
      (d'.view dst).classes =
        (d.view dst).classes ∪ otherClassSet.image (classKey d.numTypeIds src) := by
  unfold mergeClasses at h
  have hd₁ : ({ d with classSet := d.classSet ∪ otherClassSet.filter (· < d.numTypeIds) } :
      DexFileData).Valid dst.length :=
    { hd with
      classSet_lt := fun u hu => by
        rcases Finset.mem_union.1 hu with hu | hu
        · exact hd.classSet_lt u hu
        · have : u < d.numTypeIds := (Finset.mem_filter.1 hu).2
          show u < d.numTypeIds + dst.length
          omega }
  obtain ⟨⟨classSet, rfl⟩, hd', hview⟩ := foldlM_addExtraClass_spec
    (d := { d with classSet := d.classSet ∪ otherClassSet.filter (· < d.numTypeIds) }) hr
    (fun t ht => hother t (Finset.mem_filter.1 ((Finset.mem_sort _).1 ht)).1) hd₁ h
  refine ⟨⟨classSet, rfl⟩, hd', ?_⟩
  -- own type ids name the same classes in both profiles
  have hown : (otherClassSet.filter (· < d.numTypeIds)).image (classKey d.numTypeIds dst) =
      (otherClassSet.filter (· < d.numTypeIds)).image (classKey d.numTypeIds src) :=
    Finset.image_congr fun t ht => by
      simp [classKey, (Finset.mem_filter.1 (Finset.mem_coe.1 ht)).2]
  have hextra : (((otherClassSet.filter (d.numTypeIds ≤ ·)).sort (· ≤ ·)).map
      (classKey d.numTypeIds src)).toFinset =
      (otherClassSet.filter (d.numTypeIds ≤ ·)).image (classKey d.numTypeIds src) := by
    ext; simp [Finset.mem_sort]
  have hsplit : otherClassSet.filter (· < d.numTypeIds) ∪ otherClassSet.filter (d.numTypeIds ≤ ·) =
      otherClassSet := by
    rw [← Finset.filter_or]
    exact Finset.filter_true_of_mem fun t _ => Nat.lt_or_ge t d.numTypeIds
  simp only [DexFileData.view] at hview ⊢
  rw [hview, hextra, Finset.image_union, hown, Finset.union_assoc, ← Finset.image_union, hsplit]

theorem loadBit_zipWith_or {a b : List (BitVec 8)} (h : a.length = b.length) (bitOffset : Nat) :
    loadBit (List.zipWith (· ||| ·) a b) bitOffset = (loadBit a bitOffset || loadBit b bitOffset) := by
  unfold loadBit
  by_cases hi : bitOffset / kBitsPerByte < a.length
  · rw [List.getD_eq_getElem _ _ (by simpa [h] using hi), List.getD_eq_getElem _ _ hi,
      List.getD_eq_getElem _ _ (h ▸ hi), List.getElem_zipWith, BitVec.getLsbD_or]
  · rw [List.getD_eq_default _ _ (by simp [h] at hi ⊢; omega), List.getD_eq_default _ _ (by omega),
      List.getD_eq_default _ _ (by omega)]
    simp

/-- The fields a merge keeps: which dex file it is, and its sizes. -/
structure SameFile (d d' : DexFileData) : Prop where
  profileKey_eq : d'.profileKey = d.profileKey
  profileIndex_eq : d'.profileIndex = d.profileIndex
  checksum_eq : d'.checksum = d.checksum
  numTypeIds_eq : d'.numTypeIds = d.numTypeIds
  numMethodIds_eq : d'.numMethodIds = d.numMethodIds
  isForBootImage_eq : d'.isForBootImage = d.isForBootImage

theorem flags_mergeBitmap {d other : DexFileData}
    (hlen : d.bitmapStorage.length = other.bitmapStorage.length)
    (hmethods : d.numMethodIds = other.numMethodIds) (hboot : d.isForBootImage = other.isForBootImage)
    (extraDescriptors otherExtraDescriptors : List String) :
    ((d.mergeBitmap other).view extraDescriptors).flags =
      (d.view extraDescriptors).flags ⊔ (other.view otherExtraDescriptors).flags := by
  funext flag
  simp only [DexFileData.view, mergeBitmap, Pi.sup_apply, hmethods, hboot]
  split_ifs
  · ext m
    simp [loadBit_zipWith_or hlen, Finset.mem_filter, and_or_left]
  · simp

/-- The dex file's data merged with the other's, for dex files of the same sizes: the classes,
methods and flags of both. -/
theorem mergeWith_spec (hnd : dst.Nodup) (hr : RemapsExtraDescriptors remap src dst)
    {d other d' : DexFileData} (hd : d.Valid dst.length) (hother : other.Valid src.length)
    (htypes : d.numTypeIds = other.numTypeIds) (hmethods : d.numMethodIds = other.numMethodIds)
    (hboot : d.isForBootImage = other.isForBootImage)
    (h : d.mergeWith remap true other = .ok d') :
    d.SameFile d' ∧ d'.Valid dst.length ∧ d'.view dst = d.view dst ⊔ other.view src := by
  unfold mergeWith at h
  obtain ⟨d₁, h₁, h⟩ := bind_eq_ok.1 h
  obtain ⟨d₂, h₂, h⟩ := bind_eq_ok.1 h
  cases h
  obtain ⟨⟨classSet, rfl⟩, hd₁, hclasses⟩ :=
    mergeClasses_spec hr hd (fun t ht => htypes ▸ hother.classSet_lt t ht) h₁
  obtain ⟨⟨methodMap, rfl⟩, hd₂, hmethods'⟩ := mergeMethods_spec hnd hr hd₁ hother htypes hmethods h₂
  have hlen : d.bitmapStorage.length = other.bitmapStorage.length := by
    rw [hd.length_bitmapStorage, hother.length_bitmapStorage, hmethods, hboot]
  refine ⟨⟨rfl, rfl, rfl, rfl, rfl, rfl⟩,
    { hd₂ with length_bitmapStorage := by simpa [mergeBitmap, hlen] using hd.length_bitmapStorage },
    DexView.ext ?_ ?_ ?_⟩
  · -- the bitmap and the methods leave the classes as `MergeClasses` left them
    rw [DexView.sup_classes]
    exact hclasses.trans (by rw [htypes]; rfl)
  · exact hmethods'
  · exact flags_mergeBitmap hlen hmethods hboot dst src

end DexFileData

end DexFile

/-! ### Profiles -/

/-- The receiver's dex file `d` stands for the other's dex file `other`: same key, checksum and
sizes. -/
structure DexFileData.Corresponds (d other : DexFileData) : Prop where
  profileKey_eq : d.profileKey = other.profileKey
  checksum_eq : d.checksum = other.checksum
  numTypeIds_eq : d.numTypeIds = other.numTypeIds
  numMethodIds_eq : d.numMethodIds = other.numMethodIds

theorem DexFileData.Corresponds.viewKey_eq {d other : DexFileData} (h : d.Corresponds other) :
    d.viewKey = other.viewKey := by
  simp [viewKey, h.profileKey_eq, h.checksum_eq]

theorem DexFileData.Corresponds.of_sameFile {d d' other : DexFileData} (h : d.Corresponds other)
    (h' : d.SameFile d') : d'.Corresponds other :=
  ⟨h'.profileKey_eq.trans h.profileKey_eq, h'.checksum_eq.trans h.checksum_eq,
    h'.numTypeIds_eq.trans h.numTypeIds_eq, h'.numMethodIds_eq.trans h.numMethodIds_eq⟩

theorem loadBit_replicate_zero (n bitOffset : Nat) : loadBit (List.replicate n 0) bitOffset = false := by
  simp only [loadBit, List.getD_eq_getElem?_getD, List.getElem?_replicate]
  split <;> simp

/-- A new dex file's data is empty. -/
@[simp] theorem view_dexFileData (key : String) (checksum index numTypes numMethods : Nat)
    (forBootImage : Bool) (extraDescriptors : List String) :
    (dexFileData key checksum index numTypes numMethods forBootImage).view extraDescriptors = ⊥ := by
  refine DexView.ext (by simp [DexFileData.view, dexFileData]) (by simp [DexFileData.view, dexFileData])
    (funext fun flag => ?_)
  simp only [DexFileData.view, dexFileData, loadBit_replicate_zero]
  simp

theorem valid_dexFileData (key : String) (checksum index numTypes numMethods : Nat)
    (forBootImage : Bool) (n : Nat) :
    (dexFileData key checksum index numTypes numMethods forBootImage).Valid n where
  classSet_lt t ht := by simp [dexFileData] at ht
  methodIndex_lt m ic h := by simp [dexFileData] at h
  dexPc_valid m ic pc x h := by simp [dexFileData] at h
  length_bitmapStorage := by simp [dexFileData]

theorem DexFileData.Valid.mono {m n : Nat} {d : DexFileData} (hd : d.Valid m) (hmn : m ≤ n) :
    d.Valid n where
  classSet_lt t ht := by have := hd.classSet_lt t ht; omega
  methodIndex_lt := hd.methodIndex_lt
  dexPc_valid m ic pc x h hx := ⟨fun t ht => by have := (hd.dexPc_valid m ic pc x h hx).lt_bound t ht; omega⟩
  length_bitmapStorage := hd.length_bitmapStorage

theorem classKey_of_isPrefix {numTypeIds : Nat} {extraDescriptors extraDescriptors' : List String}
    (hpre : extraDescriptors.IsPrefix extraDescriptors') {t : Nat}
    (ht : t < numTypeIds + extraDescriptors.length) :
    classKey numTypeIds extraDescriptors' t = classKey numTypeIds extraDescriptors t := by
  obtain ⟨rest, rfl⟩ := hpre
  unfold classKey
  split_ifs with hlt
  · rfl
  · rw [List.getD_append _ _ _ _ (by omega)]

theorem DexPcData.view_congr {key key' : Nat → ClassKey} {d : DexPcData}
    (h : ∀ t ∈ d.classes, key t = key' t) : d.view key = d.view key' := by
  unfold view
  rw [Finset.image_congr fun t ht => h t ht]

/-- More extra descriptors at the end of the table leave a valid dex file's view as it was. -/
theorem DexFileData.view_of_isPrefix {extraDescriptors extraDescriptors' : List String}
    {d : DexFileData} (hd : d.Valid extraDescriptors.length)
    (hpre : extraDescriptors.IsPrefix extraDescriptors') :
    d.view extraDescriptors' = d.view extraDescriptors := by
  refine DexView.ext ?_ ?_ rfl
  · exact Finset.image_congr fun t ht => classKey_of_isPrefix hpre (hd.classSet_lt t ht)
  · refine lookupView_congr fun m ic hm => lookupView_congr fun pc x hx => ?_
    exact DexPcData.view_congr fun t ht =>
      classKey_of_isPrefix hpre ((hd.dexPc_valid m ic pc x hm hx).lt_bound t ht)


namespace ProfileCompilationInfo

variable {p p' : ProfileCompilationInfo}

theorem nodup_viewKey (hp : p.WellFormed) : (p.info.map DexFileData.viewKey).Nodup :=
  List.Nodup.of_map Prod.fst (by
    simpa [List.map_map, Function.comp_def, DexFileData.viewKey] using hp.nodup_profileKey)

theorem findProfileIndex_eq_some (hp : p.WellFormed) {profileKey : String} {i : Nat} :
    p.findProfileIndex profileKey = some i ↔ ∃ h : i < p.info.length, p.info[i].profileKey = profileKey := by
  rw [findProfileIndex, List.idxOf?_eq_some_iff]
  constructor
  · rintro ⟨hi, heq, -⟩
    exact ⟨by simpa using hi, by simpa using heq⟩
  · rintro ⟨hi, heq⟩
    refine ⟨by simpa using hi, by simpa using heq, fun j hj hjeq => ?_⟩
    -- keys are distinct, so no earlier dex file has the key
    have hjlt : j < (p.info.map (·.profileKey)).length := by simp; omega
    have hilt : i < (p.info.map (·.profileKey)).length := by simpa using hi
    have hkeys : (p.info.map (·.profileKey))[j] = (p.info.map (·.profileKey))[i] := by
      simpa [heq] using hjeq
    have := hp.nodup_profileKey.getElem_inj_iff.1 hkeys
    omega

theorem findProfileIndex_eq_none {profileKey : String} :
    p.findProfileIndex profileKey = none ↔ ∀ d ∈ p.info, d.profileKey ≠ profileKey := by
  simp [findProfileIndex]

theorem profileIndex_getElem (hp : p.WellFormed) {i : Nat} (hi : i < p.info.length) :
    p.info[i].profileIndex = i := by
  have := congrArg (·[i]?) hp.profileIndex_eq
  simpa [hi] using this

/-- `GetOrAddDexFileData` that finds or adds a dex file: a well-formed profile that has the dex
file at its profile index, and whose view has an empty entry joined in at the dex file's key. -/
theorem getOrAddDexFileData_spec (hp : p.WellFormed) {other d : DexFileData}
    (h : p.getOrAddDexFileData other.profileKey other.checksum other.numTypeIds other.numMethodIds =
      (p', some d)) :
    p'.WellFormed ∧ p'.extraDescriptors = p.extraDescriptors ∧
      p'.isForBootImage = p.isForBootImage ∧ (∃ added, p'.info = p.info ++ added) ∧
      p'.info[d.profileIndex]? = some d ∧ d.Corresponds other ∧
      p'.view = Function.update p.view other.viewKey (p.view other.viewKey ⊔ ↑(⊥ : DexView)) := by
  unfold getOrAddDexFileData at h
  cases hfound : p.findProfileIndex other.profileKey with
  | some i =>
    -- the dex file is there: nothing changes
    obtain ⟨hi, hkey⟩ := (findProfileIndex_eq_some hp).1 hfound
    simp only [hfound, Prod.mk.injEq, List.getElem?_eq_getElem hi, Option.filter_some] at h
    obtain ⟨rfl, h⟩ := h
    split_ifs at h with hagrees
    cases h
    simp only [DexFileData.agrees, Bool.and_eq_true, beq_iff_eq] at hagrees
    have hcorr : p.info[i].Corresponds other := ⟨hkey, hagrees.1.1, hagrees.1.2, hagrees.2⟩
    refine ⟨hp, rfl, rfl, ⟨[], by simp⟩, by simp [profileIndex_getElem hp hi, hi], hcorr, ?_⟩
    have hval : p.view p.info[i].viewKey = ↑(p.info[i].view p.extraDescriptors) :=
      keyedContribution_of_mem (nodup_viewKey hp) (List.getElem_mem hi)
    rw [← hcorr.viewKey_eq, hval, ← WithBot.coe_sup, sup_bot_eq, ← hval, Function.update_eq_self]
  | none =>
    -- a new dex file at the end
    have hnew := findProfileIndex_eq_none.1 hfound
    simp only [hfound] at h
    split_ifs at h with hfull
    · simp at h
    simp only [Prod.mk.injEq, List.getElem?_concat_length, Option.filter_some] at h
    obtain ⟨rfl, h⟩ := h
    split_ifs at h
    cases h
    have hkeys : other.viewKey ∉ p.info.map DexFileData.viewKey := by
      simp only [List.mem_map, not_exists, not_and]
      intro d hd heq
      exact hnew d hd (congrArg Prod.fst heq)
    refine ⟨⟨?_, ?_, hp.nodup_extraDescriptors, ?_, ?_⟩, rfl, rfl, ⟨_, rfl⟩, by simp [dexFileData],
      ⟨rfl, rfl, rfl, rfl⟩, ?_⟩
    · simpa [List.nodup_append] using ⟨hp.nodup_profileKey, fun d hd heq => hnew d hd heq⟩
    · simp [hp.profileIndex_eq, List.range_succ, dexFileData]
    · intro d hd
      rcases List.mem_append.1 hd with hd | hd
      · exact hp.isForBootImage_eq d hd
      · rw [List.mem_singleton.1 hd]
        rfl
    · intro d hd
      rcases List.mem_append.1 hd with hd | hd
      · exact hp.valid d hd
      · rw [List.mem_singleton.1 hd]
        exact valid_dexFileData _ _ _ _ _ _ _
    · have hbot : p.view other.viewKey = ⊥ :=
        keyedContribution_eq_bot fun d hd heq => hkeys (heq ▸ List.mem_map_of_mem hd)
      have hkeys' : (dexFileData other.profileKey other.checksum p.info.length other.numTypeIds
          other.numMethodIds p.isForBootImage).viewKey ∉ p.info.map DexFileData.viewKey := hkeys
      show keyedContribution _ _ (p.info ++ [_]) = _
      rw [keyedContribution_append_singleton hkeys', view_dexFileData, hbot, bot_sup_eq]
      rfl

/-- The receiver's dex file at the remapped index `remap[i]` stands for the other's `other`. -/
def Locates (info : List DexFileData) (remap : List Nat) (i : Nat) (other : DexFileData) : Prop :=
  ∃ d, info[remap.getD i 0]? = some d ∧ d.Corresponds other

theorem Locates.append {info : List DexFileData} {remap : List Nat} {i : Nat} {other : DexFileData}
    (h : Locates info remap i other) (hi : i < remap.length) (added : List DexFileData)
    (more : List Nat) : Locates (info ++ added) (remap ++ more) i other := by
  obtain ⟨d, hd, hcorr⟩ := h
  refine ⟨d, ?_, hcorr⟩
  rw [List.getD_append _ _ _ _ hi, List.getElem?_append_left (List.getElem?_eq_some_iff.1 hd).1, hd]

/-- The first loop, run to its end: every dex file of the other has one in the receiver, found
through the remap, and the view has an empty entry joined in at each of their keys. -/
theorem remapDexFiles_spec (hp : p.WellFormed) {others : List DexFileData}
    (hnd : (others.map DexFileData.viewKey).Nodup) {remap : List Nat}
    (h : p.remapDexFiles others = .ok (p', remap)) :
    p'.WellFormed ∧ p'.extraDescriptors = p.extraDescriptors ∧
      p'.isForBootImage = p.isForBootImage ∧
      (∀ i (hi : i < others.length), Locates p'.info remap i others[i]) ∧
      p'.view = p.view ⊔ keyedContribution DexFileData.viewKey (fun _ => ↑(⊥ : DexView)) others := by
  -- the invariant, for the dex files done so far
  have := foldlM_invariant
    (fun done (acc : ProfileCompilationInfo × List Nat) => acc.1.WellFormed ∧
      acc.1.extraDescriptors = p.extraDescriptors ∧ acc.1.isForBootImage = p.isForBootImage ∧
      acc.2.length = done.length ∧ (∀ i (hi : i < done.length), Locates acc.1.info acc.2 i done[i]) ∧
      acc.1.view = p.view ⊔ keyedContribution DexFileData.viewKey (fun _ => ↑(⊥ : DexView)) done)
    remapDexFile others
    (fun done c (acc acc' : ProfileCompilationInfo × List Nat) hpre hinv hstep => by
      obtain ⟨q, r⟩ := acc
      obtain ⟨hq, hextra, hboot, hlen, hloc, hview⟩ := hinv
      unfold remapDexFile at hstep
      rcases hget : q.getOrAddDexFileData c.profileKey c.checksum c.numTypeIds c.numMethodIds with
        ⟨q₁, _ | d⟩
      · simp [hget] at hstep
      ·
        simp only [hget, Except.ok.injEq] at hstep
        subst hstep
        obtain ⟨hq₁, hextra₁, hboot₁, ⟨added, hadded⟩, hd, hcorr, hview₁⟩ :=
          getOrAddDexFileData_spec hq hget
        refine ⟨hq₁, hextra₁.trans hextra, hboot₁.trans hboot, by simp [hlen], fun i hi => ?_,
          hview₁.trans (update_sup_keyedContribution (notMem_of_isPrefix hnd hpre) hview)⟩
        rw [List.length_append, List.length_singleton] at hi
        rcases Nat.lt_succ_iff_lt_or_eq.1 hi with hi | rfl
        · -- a dex file done before: where it was
          rw [List.getElem_append_left hi, hadded]
          exact (hloc i hi).append (hlen ▸ hi) added [d.profileIndex]
        · -- the new one: `d`, at its profile index
          refine ⟨d, ?_, by simpa using hcorr⟩
          rw [List.getD_append_right _ _ _ _ hlen.le, hlen, Nat.sub_self]
          exact hd)
    ⟨hp, rfl, rfl, rfl, fun i hi => absurd hi (by simp), by simp⟩ h
  exact ⟨this.1, this.2.1, this.2.2.1, this.2.2.2.2.1, this.2.2.2.2.2⟩

/-- The second loop, run to its end: the table grows at its end and stays free of duplicates,
and the remap sends each extra descriptor of the other to its index in the table. -/
theorem remapExtraDescriptors_spec (hp : p.WellFormed) {others : List String} {remap : List Nat}
    (h : p.remapExtraDescriptors others = .ok (p', remap)) :
    p'.info = p.info ∧ p'.isForBootImage = p.isForBootImage ∧
      p.extraDescriptors.IsPrefix p'.extraDescriptors ∧ p'.extraDescriptors.Nodup ∧
      RemapsExtraDescriptors remap others p'.extraDescriptors := by
  have := foldlM_invariant
    (fun done (acc : ProfileCompilationInfo × List Nat) => acc.1.info = p.info ∧
      acc.1.isForBootImage = p.isForBootImage ∧
      p.extraDescriptors.IsPrefix acc.1.extraDescriptors ∧ acc.1.extraDescriptors.Nodup ∧
      acc.2.length = done.length ∧ RemapsExtraDescriptors acc.2 done acc.1.extraDescriptors)
    remapExtraDescriptor others
    (fun done c (acc acc' : ProfileCompilationInfo × List Nat) _ hinv hstep => by
      obtain ⟨q, r⟩ := acc
      obtain ⟨hinfo, hboot, hpre, hnd, hlen, hremap⟩ := hinv
      simp only at hinfo hboot hpre hnd hlen hremap
      -- the descriptors done before keep their indexes
      have hold : ∀ (extra : List String) j, RemapsExtraDescriptors (r ++ [j]) done
          (q.extraDescriptors ++ extra) := fun extra j i hi => by
        obtain ⟨k, hk, hq⟩ := hremap i hi
        exact ⟨k, by rw [List.getElem?_append_left (hlen ▸ hi), hk],
          by rw [List.getElem?_append_left (List.getElem?_eq_some_iff.1 hq).1, hq]⟩
      -- and `c` gets its own
      have hnew : ∀ (extra : List String) j, (q.extraDescriptors ++ extra)[j]? = some c →
          RemapsExtraDescriptors (r ++ [j]) (done ++ [c]) (q.extraDescriptors ++ extra) :=
        fun extra j hj i hi => by
          rw [List.length_append, List.length_singleton] at hi
          rcases Nat.lt_succ_iff_lt_or_eq.1 hi with hi | rfl
          · simpa [List.getElem_append_left hi] using hold extra j i hi
          · exact ⟨j, by rw [← hlen, List.getElem?_concat_length], by simpa using hj⟩
      unfold remapExtraDescriptor at hstep
      cases hidx : q.extraDescriptors.idxOf? c with
      | some index =>
        simp only [hidx, Except.ok.injEq] at hstep
        subst hstep
        obtain ⟨hi, hget, -⟩ := List.idxOf?_eq_some_iff.1 hidx
        refine ⟨hinfo, hboot, hpre, hnd, by simp [hlen], ?_⟩
        simpa using hnew [] index (by simp [List.getElem?_eq_getElem hi, hget])
      | none =>
        have hc : c ∉ q.extraDescriptors := List.idxOf?_eq_none_iff.1 hidx
        by_cases hfull : q.extraDescriptors.length = kMaxExtraDescriptors
        · simp [hidx, addExtraDescriptor, hfull] at hstep
        · simp only [hidx, addExtraDescriptor, hfull, if_false, Except.ok.injEq] at hstep
          subst hstep
          refine ⟨hinfo, hboot, hpre.trans (List.prefix_append _ _), ?_, by simp [hlen],
            hnew [c] _ (by simp)⟩
          exact List.nodup_append.2 ⟨hnd, List.nodup_singleton c,
            fun a ha b hb hab => hc (by simp_all)⟩)
    ⟨rfl, rfl, List.prefix_refl _, hp.nodup_extraDescriptors, rfl, fun i hi => absurd hi (by simp)⟩ h
  exact ⟨this.1, this.2.1, this.2.2.1, this.2.2.2.1, this.2.2.2.2.2⟩

/-- A longer table of extra descriptors keeps a profile well formed and its view the same. -/
theorem WellFormed.of_isPrefix (hp : p.WellFormed) (hinfo : p'.info = p.info)
    (hboot : p'.isForBootImage = p.isForBootImage)
    (hpre : p.extraDescriptors.IsPrefix p'.extraDescriptors) (hnd : p'.extraDescriptors.Nodup) :
    p'.WellFormed ∧ p'.view = p.view := by
  refine ⟨⟨hinfo ▸ hp.nodup_profileKey, hinfo ▸ hp.profileIndex_eq, hnd,
    fun d hd => hboot ▸ hp.isForBootImage_eq d (hinfo ▸ hd),
    fun d hd => (hp.valid d (hinfo ▸ hd)).mono hpre.length_le⟩, ?_⟩
  unfold view
  rw [hinfo]
  exact keyedContribution_congr fun d hd => by
    rw [DexFileData.view_of_isPrefix (hp.valid d hd) hpre]

theorem Locates.set {info : List DexFileData} {remap : List Nat} {k i : Nat} {other d d' : DexFileData}
    (h : Locates info remap k other) (hd : info[i]? = some d) (hsame : d.SameFile d') :
    Locates (info.set i d') remap k other := by
  obtain ⟨e, he, hcorr⟩ := h
  by_cases hki : remap.getD k 0 = i
  · rw [hki, hd, Option.some.injEq] at he
    subst he
    refine ⟨d', ?_, hcorr.of_sameFile hsame⟩
    rw [hki, List.getElem?_set_self (List.getElem?_eq_some_iff.1 hd).1]
  · exact ⟨e, by rw [List.getElem?_set_ne (Ne.symm hki), he], hcorr⟩

/-- Replacing a dex file's data by data for the same dex file keeps a profile well formed. -/
theorem WellFormed.set (hp : p.WellFormed) {i : Nat} {d d' : DexFileData} (hd : p.info[i]? = some d)
    (hsame : d.SameFile d') (hvalid : d'.Valid p.extraDescriptors.length) :
    ({ p with info := p.info.set i d' } : ProfileCompilationInfo).WellFormed := by
  have hi := (List.getElem?_eq_some_iff.1 hd).1
  have hdi : p.info[i] = d := (List.getElem?_eq_some_iff.1 hd).2
  have hmap : ∀ {β : Type} (f : DexFileData → β), f d' = f d → (p.info.set i d').map f = p.info.map f :=
    fun f hf => by
      rw [List.map_set, hf, ← hdi, ← List.getElem_map f, List.set_getElem_self]
      simpa using hi
  refine ⟨?_, ?_, hp.nodup_extraDescriptors, fun e he => ?_, fun e he => ?_⟩
  · rw [hmap _ hsame.profileKey_eq]
    exact hp.nodup_profileKey
  · rw [hmap _ hsame.profileIndex_eq, List.length_set]
    exact hp.profileIndex_eq
  · rcases List.mem_or_eq_of_mem_set he with he | rfl
    exacts [hp.isForBootImage_eq e he, hsame.isForBootImage_eq.trans (hp.isForBootImage_eq d (hdi ▸ List.getElem_mem hi))]
  · rcases List.mem_or_eq_of_mem_set he with he | rfl
    exacts [hp.valid e he, hvalid]

/-- The last loop's body: the other dex file merged into the receiver's at its remapped index
joins its view in at its key. -/
theorem mergeDexFile_spec {dexProfileIndexRemap extraDescriptorsRemap : List Nat}
    {otherExtraDescriptors : List String} {other : DexFileData} (hp : p.WellFormed)
    (hr : RemapsExtraDescriptors extraDescriptorsRemap otherExtraDescriptors p.extraDescriptors)
    (hother : other.Valid otherExtraDescriptors.length) (hboot : other.isForBootImage = p.isForBootImage)
    (hloc : Locates p.info dexProfileIndexRemap other.profileIndex other)
    (h : p.mergeDexFile dexProfileIndexRemap extraDescriptorsRemap true other = .ok p') :
    p'.WellFormed ∧ p'.extraDescriptors = p.extraDescriptors ∧
      p'.isForBootImage = p.isForBootImage ∧
      (∃ i d d', p.info[i]? = some d ∧ d.SameFile d' ∧ p'.info = p.info.set i d') ∧
      p'.view = Function.update p.view other.viewKey
        (p.view other.viewKey ⊔ ↑(other.view otherExtraDescriptors)) := by
  obtain ⟨d, hd, hcorr⟩ := hloc
  have hi := (List.getElem?_eq_some_iff.1 hd).1
  have hdi := (List.getElem?_eq_some_iff.1 hd).2
  simp only [mergeDexFile, hd] at h
  obtain ⟨d', hmerge, rfl⟩ := mapBoth_eq_ok.1 h
  have hdvalid := hp.valid d (hdi ▸ List.getElem_mem hi)
  obtain ⟨hsame, hvalid', hview⟩ := DexFileData.mergeWith_spec hp.nodup_extraDescriptors hr hdvalid
    hother hcorr.numTypeIds_eq hcorr.numMethodIds_eq
    ((hp.isForBootImage_eq d (hdi ▸ List.getElem_mem hi)).trans hboot.symm) hmerge
  refine ⟨hp.set hd hsame hvalid', rfl, rfl, ⟨_, d, d', hd, hsame, rfl⟩, ?_⟩
  have hkey : d'.viewKey = other.viewKey := (hcorr.of_sameFile hsame).viewKey_eq
  have hval : p.view other.viewKey = ↑(d.view p.extraDescriptors) := by
    rw [← hcorr.viewKey_eq, ← hdi]
    exact keyedContribution_of_mem (nodup_viewKey hp) (List.getElem_mem hi)
  show keyedContribution _ _ (p.info.set _ d') = _
  rw [keyedContribution_set (nodup_viewKey hp) hi (by rw [hdi, hkey, hcorr.viewKey_eq]), hkey, hval,
    hview, WithBot.coe_sup]
  rfl

/-- The last loop, run to its end: every dex file of the other joined in at its key. -/
theorem mergeDexFiles_spec {dexProfileIndexRemap extraDescriptorsRemap : List Nat}
    {otherExtraDescriptors : List String} {others : List DexFileData} (hp : p.WellFormed)
    (hr : RemapsExtraDescriptors extraDescriptorsRemap otherExtraDescriptors p.extraDescriptors)
    (hnd : (others.map DexFileData.viewKey).Nodup)
    (hothers : ∀ o ∈ others, o.Valid otherExtraDescriptors.length ∧
      o.isForBootImage = p.isForBootImage ∧ Locates p.info dexProfileIndexRemap o.profileIndex o)
    (h : p.mergeDexFiles dexProfileIndexRemap extraDescriptorsRemap true others = .ok p') :
    p'.WellFormed ∧ p'.view = p.view ⊔
      keyedContribution DexFileData.viewKey (fun o => ↑(o.view otherExtraDescriptors)) others := by
  have := foldlM_keyed_sup
    (fun q : ProfileCompilationInfo => q.WellFormed ∧ q.extraDescriptors = p.extraDescriptors ∧
      q.isForBootImage = p.isForBootImage ∧
      ∀ o ∈ others, Locates q.info dexProfileIndexRemap o.profileIndex o)
    (· ∈ others) view DexFileData.viewKey (fun o => ↑(o.view otherExtraDescriptors))
    (mergeDexFile dexProfileIndexRemap extraDescriptorsRemap true)
    (fun q o q' ⟨hq, hextra, hboot, hloc⟩ ho hstep => by
      obtain ⟨hvalid, hboot', -⟩ := hothers o ho
      obtain ⟨hq', hextra', hboot'', ⟨i, d, d', hd, hsame, hinfo⟩, hview⟩ :=
        mergeDexFile_spec hq (hextra ▸ hr) hvalid (hboot'.trans hboot.symm) (hloc o ho) hstep
      exact ⟨⟨hq', hextra'.trans hextra, hboot''.trans hboot,
        fun o' ho' => hinfo ▸ (hloc o' ho').set hd hsame⟩, hview⟩)
    hnd (fun _ ho => ho) ⟨hp, rfl, rfl, fun o ho => (hothers o ho).2.2⟩ h
  exact ⟨this.1.1, this.2⟩

/-- The whole merge, when it returns `true`: a well-formed profile whose view is the join of the
two views. -/
theorem mergeWith_view {other r : ProfileCompilationInfo} (hp : p.WellFormed)
    (hother : other.WellFormed) (h : p.mergeWith other true = (true, r)) :
    r.WellFormed ∧ r.view = p.view ⊔ other.view := by
  unfold mergeWith at h
  split_ifs at h with hversion hmismatch
  · simp at h
  · simp at h
  have hboot : p.isForBootImage = other.isForBootImage := by simpa [sameVersion] using hversion
  dsimp only at h
  split at h
  · rename_i q hmerged
    simp only [Prod.mk.injEq, true_and] at h
    subst h
    obtain ⟨⟨p₁, dexProfileIndexRemap⟩, h₁, hmerged⟩ := bind_eq_ok.1 hmerged
    obtain ⟨⟨p₂, extraDescriptorsRemap⟩, h₂, h₃⟩ := bind_eq_ok.1 hmerged
    obtain ⟨hp₁, hextra₁, hboot₁, hloc₁, hview₁⟩ := remapDexFiles_spec hp (nodup_viewKey hother) h₁
    obtain ⟨hinfo₂, hboot₂, hpre₂, hnd₂, hr₂⟩ := remapExtraDescriptors_spec hp₁ h₂
    obtain ⟨hp₂, hview₂⟩ := hp₁.of_isPrefix hinfo₂ hboot₂ hpre₂ hnd₂
    -- each dex file of the other, where the first loop put it
    have hothers : ∀ o ∈ other.info, o.Valid other.extraDescriptors.length ∧
        o.isForBootImage = p₂.isForBootImage ∧
        Locates p₂.info dexProfileIndexRemap o.profileIndex o := by
      intro o ho
      obtain ⟨i, hi, rfl⟩ := List.getElem_of_mem ho
      refine ⟨hother.valid _ ho, ?_, ?_⟩
      · rw [hboot₂, hboot₁, hboot]
        exact hother.isForBootImage_eq _ ho
      · rw [hinfo₂, profileIndex_getElem hother hi]
        exact hloc₁ i hi
    obtain ⟨hr, hview₃⟩ := mergeDexFiles_spec hp₂ hr₂ (nodup_viewKey hother) hothers h₃
    refine ⟨hr, ?_⟩
    -- the empty entries the first loop joined in are below the other's view
    have hle : keyedContribution DexFileData.viewKey (fun _ => ↑(⊥ : DexView)) other.info ≤
        other.view :=
      keyedContribution_mono fun _ _ => WithBot.coe_le_coe.2 bot_le
    rw [hview₃, hview₂, hview₁, sup_assoc]
    exact congrArg (p.view ⊔ ·) (sup_eq_right.2 hle)
  · simp at h

/-- Merges that succeed commute in the view. -/
theorem mergeWith_view_comm {q r r' : ProfileCompilationInfo} (hp : p.WellFormed)
    (hq : q.WellFormed) (h : p.mergeWith q true = (true, r)) (h' : q.mergeWith p true = (true, r')) :
    r.view = r'.view := by
  rw [(mergeWith_view hp hq h).2, (mergeWith_view hq hp h').2, sup_comm]

/-- Merges that succeed associate in the view. -/
theorem mergeWith_view_assoc {q s pq qs r r' : ProfileCompilationInfo} (hp : p.WellFormed)
    (hq : q.WellFormed) (hs : s.WellFormed) (hpq : p.mergeWith q true = (true, pq))
    (h : pq.mergeWith s true = (true, r)) (hqs : q.mergeWith s true = (true, qs))
    (h' : p.mergeWith qs true = (true, r')) : r.view = r'.view := by
  obtain ⟨hpq', hpq_view⟩ := mergeWith_view hp hq hpq
  obtain ⟨hqs', hqs_view⟩ := mergeWith_view hq hs hqs
  rw [(mergeWith_view hpq' hs h).2, (mergeWith_view hp hqs' h').2, hpq_view, hqs_view, sup_assoc]

/-- A merge with itself that succeeds leaves the view as it was. -/
theorem mergeWith_view_self {r : ProfileCompilationInfo} (hp : p.WellFormed)
    (h : p.mergeWith p true = (true, r)) : r.view = p.view := by
  rw [(mergeWith_view hp hp h).2, sup_idem]

/-- A version or checksum mismatch returns `false` with the receiver as it was. -/
theorem mergeWith_of_mismatch {other : ProfileCompilationInfo} {mergeClasses : Bool}
    (h : p.sameVersion other = false ∨ other.info.any p.checksumMismatch = true) :
    p.mergeWith other mergeClasses = (false, p) := by
  unfold mergeWith
  split_ifs with hversion hmismatch
  · rfl
  · rfl
  · rcases h with h | h
    · simp [h] at hversion
    · exact absurd h hmismatch

theorem mergeWith_join {other : ProfileCompilationInfo} (hp : p.WellFormed)
    (hother : other.WellFormed) :
    (∀ r, p.mergeWith other true = (true, r) → r.WellFormed ∧ r.view = p.view ⊔ other.view) ∧
    (∀ r r', p.mergeWith other true = (true, r) → other.mergeWith p true = (true, r') →
      r.view = r'.view) ∧
    (∀ r, p.mergeWith p true = (true, r) → r.view = p.view) ∧
    (p.sameVersion other = false ∨ other.info.any p.checksumMismatch = true →
      p.mergeWith other true = (false, p)) :=
  ⟨fun _ h => mergeWith_view hp hother h, fun _ _ h h' => mergeWith_view_comm hp hother h h',
    fun _ h => mergeWith_view_self hp h, mergeWith_of_mismatch⟩

theorem mergeWith_join_two_dex_files :
    (⟨false, [dexFileData "a" 1 0 1 1 false], []⟩ : ProfileCompilationInfo).WellFormed ∧
    (⟨false, [dexFileData "b" 2 0 1 1 false], []⟩ : ProfileCompilationInfo).WellFormed ∧
    ((∀ r, (⟨false, [dexFileData "a" 1 0 1 1 false], []⟩ : ProfileCompilationInfo).mergeWith
        ⟨false, [dexFileData "b" 2 0 1 1 false], []⟩ true = (true, r) →
        r.WellFormed ∧ r.view = ProfileCompilationInfo.view ⟨false, [dexFileData "a" 1 0 1 1 false], []⟩ ⊔
          ProfileCompilationInfo.view ⟨false, [dexFileData "b" 2 0 1 1 false], []⟩) ∧
      (∀ r r', (⟨false, [dexFileData "a" 1 0 1 1 false], []⟩ : ProfileCompilationInfo).mergeWith
        ⟨false, [dexFileData "b" 2 0 1 1 false], []⟩ true = (true, r) →
        (⟨false, [dexFileData "b" 2 0 1 1 false], []⟩ : ProfileCompilationInfo).mergeWith
          ⟨false, [dexFileData "a" 1 0 1 1 false], []⟩ true = (true, r') → r.view = r'.view) ∧
      (∀ r, (⟨false, [dexFileData "a" 1 0 1 1 false], []⟩ : ProfileCompilationInfo).mergeWith
        ⟨false, [dexFileData "a" 1 0 1 1 false], []⟩ true = (true, r) →
        r.view = ProfileCompilationInfo.view ⟨false, [dexFileData "a" 1 0 1 1 false], []⟩) ∧
      (ProfileCompilationInfo.sameVersion ⟨false, [dexFileData "a" 1 0 1 1 false], []⟩
          ⟨false, [dexFileData "b" 2 0 1 1 false], []⟩ = false ∨
        List.any [dexFileData "b" 2 0 1 1 false]
          (ProfileCompilationInfo.checksumMismatch ⟨false, [dexFileData "a" 1 0 1 1 false], []⟩) =
          true →
        (⟨false, [dexFileData "a" 1 0 1 1 false], []⟩ : ProfileCompilationInfo).mergeWith
          ⟨false, [dexFileData "b" 2 0 1 1 false], []⟩ true =
          (false, ⟨false, [dexFileData "a" 1 0 1 1 false], []⟩))) :=
  have ha : (⟨false, [dexFileData "a" 1 0 1 1 false], []⟩ : ProfileCompilationInfo).WellFormed :=
    ⟨by decide, by decide, by decide, by simp [dexFileData], by simp [valid_dexFileData]⟩
  have hb : (⟨false, [dexFileData "b" 2 0 1 1 false], []⟩ : ProfileCompilationInfo).WellFormed :=
    ⟨by decide, by decide, by decide, by simp [dexFileData], by simp [valid_dexFileData]⟩
  ⟨ha, hb, mergeWith_join ha hb⟩

/-- A merge that fails after the first loop has added a dex file: the other profile's second dex
file has the receiver's key and checksum but more type ids, so `GetOrAddDexFileData` refuses it
after it has added the first. -/
theorem mergeWith_adds_dex_file_on_failure :
    (⟨false, [dexFileData "a" 1 0 1 1 false], []⟩ : ProfileCompilationInfo).WellFormed ∧
    (⟨false, [dexFileData "b" 2 0 1 1 false, dexFileData "a" 1 1 2 1 false], []⟩ :
      ProfileCompilationInfo).WellFormed ∧
    ((⟨false, [dexFileData "a" 1 0 1 1 false], []⟩ : ProfileCompilationInfo).mergeWith
      ⟨false, [dexFileData "b" 2 0 1 1 false, dexFileData "a" 1 1 2 1 false], []⟩ true).1 = false ∧
    ((⟨false, [dexFileData "a" 1 0 1 1 false], []⟩ : ProfileCompilationInfo).mergeWith
      ⟨false, [dexFileData "b" 2 0 1 1 false, dexFileData "a" 1 1 2 1 false], []⟩
      true).2.info.length = 2 :=
  ⟨⟨by decide, by decide, by decide, by simp [dexFileData], by simp [valid_dexFileData]⟩,
    ⟨by decide, by decide, by decide, by simp [dexFileData], by simp [valid_dexFileData]⟩,
    by decide, by decide⟩

end ProfileCompilationInfo

end Art.Profile
