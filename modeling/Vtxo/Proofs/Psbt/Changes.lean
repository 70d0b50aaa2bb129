import Mathlib.Data.List.Nodup
import Vtxo.Psbt.Basic

/-!
# Changes to several inputs

The maps of inputs are changed one after the other. Where each position is changed once, each input ends with its own
change, and the transaction stays as it was exactly if every change leaves its input as it is.

  1. `SortedMap.insert_eq_self_iff`: an insertion changes nothing if the entry is there.
  2. `Psbt.getElem?_modifyInputs`: an input after all changes.
  3. `Psbt.modifyInput_eq_self_iff`, `Psbt.modifyInputs_eq_self_iff`: changes that change nothing.
  4. `Psbt.modifyInputs_modifyInputs_eq_self_iff`: changes of signatures after changes of everything else.
-/

set_option autoImplicit false

namespace Vtxo

namespace SortedMap

variable {κ ν : Type} [ByteKey κ] [DecidableEq κ]

theorem insertEntry_eq_self {key : κ} {value : ν} {entries : List (κ × ν)}
    (h : entries.Pairwise fun a b => keyBefore a.1 b.1)
    (hfound : entries.find? (fun entry => entry.1 == key) = some (key, value)) :
    insertEntry key value entries = entries := by
  induction entries with
  | nil => cases hfound
  | cons first rest ih =>
    obtain ⟨hfirst, hrest⟩ := List.pairwise_cons.mp h
    have hbefore : ¬ keyBefore key first.1 := by
      intro hbefore
      rcases List.mem_cons.mp (List.mem_of_find?_eq_some hfound) with hsame | hmem
      · rw [← hsame] at hbefore
        exact keyBefore_irrefl key hbefore
      · exact keyBefore_irrefl key (keyBefore_trans hbefore (hfirst _ hmem))
    rw [insertEntry, if_neg hbefore]
    by_cases hsame : first.1 = key
    · rw [List.find?_cons_of_pos (by simpa using hsame)] at hfound
      cases hfound
      exact if_neg (keyBefore_irrefl key)
    · rw [List.find?_cons_of_neg (by simpa using hsame)] at hfound
      have hafter : keyBefore first.1 key := hfirst _ (List.mem_of_find?_eq_some hfound)
      rw [if_pos hafter, ih hrest hfound]

/-- An insertion changes nothing exactly if the value is the one of the key already. -/
theorem insert_eq_self_iff {map : SortedMap κ ν} {key : κ} {value : ν} :
    map.insert key value = map ↔ map.find? key = some value := by
  constructor
  · intro h
    rw [← h, find?_insert, if_pos rfl]
  · intro h
    obtain ⟨entry, hentry, hvalue⟩ := Option.map_eq_some_iff.mp h
    have hkey : entry.1 = key := by simpa using List.find?_some hentry
    refine ext (insertEntry_eq_self map.sorted ?_)
    rw [hentry, ← hkey, ← hvalue]

end SortedMap

/-- What is known about an input besides signatures. -/
def InputMaps.withoutSignatures (maps : InputMaps) : InputMaps :=
  { maps with signatures := .empty }

theorem InputMaps.eq_of_parts {maps other : InputMaps} (hknown : maps.withoutSignatures = other.withoutSignatures)
    (hsignatures : maps.signatures = other.signatures) : maps = other := by
  obtain ⟨_, _, _, _⟩ := maps
  obtain ⟨_, _, _, _⟩ := other
  cases hsignatures
  cases hknown
  rfl

theorem InputMaps.forall_eq_of_parts {inputs others : List InputMaps}
    (hknown : inputs.map withoutSignatures = others.map withoutSignatures)
    (hsignatures : inputs.map signatures = others.map signatures) : inputs = others := by
  induction inputs generalizing others with
  | nil => exact (List.map_eq_nil_iff.mp hknown.symm).symm
  | cons maps inputs ih =>
    cases others with
    | nil => cases hknown
    | cons other others =>
      obtain ⟨hfirst, hrest⟩ := List.cons.inj hknown
      obtain ⟨hfirst', hrest'⟩ := List.cons.inj hsignatures
      rw [eq_of_parts hfirst hfirst', ih hrest hrest']

namespace Psbt

/-- A position and the change of the maps there. -/
abbrev Change := Nat × (InputMaps → InputMaps)

/-- The maps of some inputs changed, one after the other. -/
def modifyInputs (psbt : Psbt) (changes : List Change) : Psbt :=
  changes.foldl (fun changed change => changed.modifyInput change.1 change.2) psbt

variable {psbt other : Psbt} {changes : List Change}

theorem eq_of_inputs (htx : psbt.tx = other.tx) (hinputs : psbt.inputs = other.inputs) : psbt = other := by
  cases psbt
  cases other
  cases htx
  cases hinputs
  rfl

@[simp] theorem modifyInputs_nil : psbt.modifyInputs [] = psbt := rfl

theorem modifyInputs_cons (change : Change) (changes : List Change) :
    psbt.modifyInputs (change :: changes) = (psbt.modifyInput change.1 change.2).modifyInputs changes := rfl

@[simp] theorem length_modifyInput (index : Nat) (change : InputMaps → InputMaps) :
    (psbt.modifyInput index change).inputs.length = psbt.inputs.length := by
  simp [modifyInput]

theorem getElem?_modifyInput (index : Nat) (change : InputMaps → InputMaps) :
    (psbt.modifyInput index change).inputs[index]? = psbt.inputs[index]?.map change := by
  simp [modifyInput]

theorem modifyInput_eq_self_iff {index : Nat} {change : InputMaps → InputMaps} :
    psbt.modifyInput index change = psbt ↔ psbt.inputs[index]?.map change = psbt.inputs[index]? := by
  constructor
  · intro h
    rw [← getElem?_modifyInput, h]
  · intro h
    refine eq_of_inputs rfl (List.ext_getElem? fun other => ?_)
    by_cases hindex : index = other
    · rw [← hindex, getElem?_modifyInput, h]
    · exact inputs_modifyInput_of_ne _ _ hindex

@[simp] theorem tx_modifyInputs : (psbt.modifyInputs changes).tx = psbt.tx := by
  induction changes generalizing psbt with
  | nil => rfl
  | cons change changes ih => exact ih

@[simp] theorem length_modifyInputs : (psbt.modifyInputs changes).inputs.length = psbt.inputs.length := by
  rw [sized, sized, tx_modifyInputs]

/-! ## One input after all changes -/

theorem getElem?_modifyInputs_of_notMem {index : Nat} (h : index ∉ changes.map Prod.fst) :
    (psbt.modifyInputs changes).inputs[index]? = psbt.inputs[index]? := by
  induction changes generalizing psbt with
  | nil => rfl
  | cons change changes ih =>
    obtain ⟨hne, hothers⟩ := List.ne_and_not_mem_of_not_mem_cons h
    rw [modifyInputs_cons, ih hothers, inputs_modifyInput_of_ne _ _ (Ne.symm hne)]

/-- Where each position is changed once, an input ends with the change for its position. -/
theorem getElem?_modifyInputs (hdistinct : (changes.map Prod.fst).Nodup) {change : Change} (h : change ∈ changes) :
    (psbt.modifyInputs changes).inputs[change.1]? = psbt.inputs[change.1]?.map change.2 := by
  induction changes generalizing psbt with
  | nil => cases h
  | cons first changes ih =>
    obtain ⟨hfirst, hothers⟩ := List.nodup_cons.mp hdistinct
    rw [modifyInputs_cons]
    rcases List.mem_cons.mp h with rfl | hmem
    · rw [getElem?_modifyInputs_of_notMem hfirst, getElem?_modifyInput]
    · have hne : first.1 ≠ change.1 := fun hsame => hfirst (hsame ▸ List.mem_map_of_mem hmem)
      rw [ih hothers hmem, inputs_modifyInput_of_ne _ _ hne]

theorem modifyInputs_eq_self_iff (hdistinct : (changes.map Prod.fst).Nodup) :
    psbt.modifyInputs changes = psbt ↔ ∀ change ∈ changes, psbt.modifyInput change.1 change.2 = psbt := by
  constructor
  · intro h change hmem
    rw [modifyInput_eq_self_iff, ← getElem?_modifyInputs hdistinct hmem, h]
  · intro h
    clear hdistinct
    induction changes with
    | nil => rfl
    | cons change changes ih =>
      obtain ⟨hchange, hothers⟩ := List.forall_mem_cons.mp h
      rw [modifyInputs_cons, hchange, ih hothers]

/-! ## Changes that leave a part of the maps alone -/

/-- A part of the maps that no change touches stays as it is on every input. -/
theorem map_inputs_modifyInputs {α : Type} (psbt : Psbt) (part : InputMaps → α)
    (h : ∀ change ∈ changes, ∀ maps, part (change.2 maps) = part maps) :
    (psbt.modifyInputs changes).inputs.map part = psbt.inputs.map part := by
  induction changes generalizing psbt with
  | nil => rfl
  | cons change changes ih =>
    obtain ⟨hchange, hothers⟩ := List.forall_mem_cons.mp h
    rw [modifyInputs_cons, ih _ hothers]
    refine List.ext_getElem? fun index => ?_
    rw [List.getElem?_map, List.getElem?_map]
    by_cases hindex : change.1 = index
    · rw [← hindex, getElem?_modifyInput, Option.map_map]
      exact congrArg (Option.map · _) (funext (hchange ·))
    · rw [inputs_modifyInput_of_ne _ _ hindex]

/-- Changes of everything but signatures and changes of signatures do not undo each other. -/
theorem modifyInputs_modifyInputs_eq_self_iff {signing : List Change}
    (hchanges : ∀ change ∈ changes, ∀ maps, (change.2 maps).signatures = maps.signatures)
    (hsigning : ∀ change ∈ signing, ∀ maps, (change.2 maps).withoutSignatures = maps.withoutSignatures) :
    (psbt.modifyInputs changes).modifyInputs signing = psbt ↔
      psbt.modifyInputs changes = psbt ∧ psbt.modifyInputs signing = psbt := by
  constructor
  · intro h
    have hsignatures := map_inputs_modifyInputs psbt InputMaps.signatures hchanges
    have hknown := map_inputs_modifyInputs (psbt.modifyInputs changes) InputMaps.withoutSignatures hsigning
    rw [h] at hknown
    have hfirst : psbt.modifyInputs changes = psbt :=
      eq_of_inputs tx_modifyInputs (InputMaps.forall_eq_of_parts hknown.symm hsignatures)
    rw [hfirst] at h
    exact ⟨hfirst, h⟩
  · rintro ⟨hfirst, hsecond⟩
    rw [hfirst, hsecond]

end Psbt

end Vtxo
