import Vtxo.Proofs.Address
import Vtxo.Proofs.Contract.Fields
import Vtxo.Proofs.Contract.Note
import Vtxo.Proofs.Taproot.ScriptList
import Vtxo.Proofs.Timelock

/-!
# Contracts, written and read

Every kind of contract is read back from its text, in whatever order the fields stand there. The only limit is that of
the scripts a contract is given as they are: one that is too long can be written but not read.

  1. `Contract.ofFields_fields`: a contract is read back from its fields.
  2. `Contract.ofFields_congr`: what is read depends on the lookup of fields only.
  3. `Registry.parse_of_reordered`: a contract is read back from its text.
-/

set_option autoImplicit false

namespace Vtxo

theorem XOnlyKey.ofHex?_hex (key : XOnlyKey) : ofHex? key.hex = some key := by
  rw [ofHex?, hex, Hex.decode_encode]
  exact ofBytes?_bytes key

/-! ## Single fields -/

namespace Fields

variable {fields : Fields} {name : String}

theorem read_of_get? {α : Type} {parse : String → Option α} {text : String} {value : α}
    (h : fields.get? name = some text) (hparse : parse text = some value) (fault : ContractFault) :
    fields.read name parse fault = .ok value := by
  rw [read, required, h]
  simp only [bind, Except.bind]
  rw [hparse]
  rfl

theorem key_of_get? {key : XOnlyKey} (h : fields.get? name = some key.hex) : fields.key name = .ok key :=
  read_of_get? h key.ofHex?_hex _

theorem word_of_get? {word : UInt32} (h : fields.get? name = some (toString word.toNat)) :
    fields.word name = .ok word := by
  have hlt := word.toNat_lt
  have hread : fields.unsigned 4294967295 name = .ok word.toNat :=
    read_of_get? h (Decimal.unsigned?_repr (by omega)) _
  rw [Fields.word, hread]
  exact congrArg Except.ok UInt32.ofNat_toNat

theorem lock_of_get? {delay : Delay} (h : fields.get? name = some (toString delay.sequence.toNat)) :
    fields.lock name = .ok delay.lock := by
  rw [lock, word_of_get? h]
  exact delay.ofSequence_sequence

theorem bytes_of_get? {bytes : Bytes} (h : fields.get? name = some (Hex.encode bytes)) :
    fields.bytes name = .ok bytes := by
  rw [Fields.bytes, required, h]
  simp only [bind, Except.bind]
  rw [Hex.decode_encode]
  rfl

end Fields

/-! ## Fields of each kind -/

theorem HashLock.ofFields_of_get? {fields : Fields} {lock : HashLock}
    (hname : fields.get? "hash_type" = some lock.name) (hdigest : fields.get? "hash" = some (Hex.encode lock.digest)) :
    HashLock.ofFields fields = .ok lock := by
  rw [HashLock.ofFields, Fields.bytes_of_get? hdigest, hname]
  cases lock with
  | sha256 digest =>
    simp only [bind, Except.bind, name, HashLock.digest, Option.getD_some, if_true, Sized.ofBytes?_val]
    rfl
  | hash160 digest =>
    have hne : ¬ "hash160" = "sha256" := by decide
    simp only [bind, Except.bind, name, HashLock.digest, Option.getD_some, hne, if_false, if_true,
      Sized.ofBytes?_val]
    rfl

theorem Payment.ofFields_fields (c : Payment) : ofFields c.fields = .ok c := by
  have hserver : c.fields.key "server" = .ok c.server := Fields.key_of_get? rfl
  have huser : c.fields.key "user" = .ok c.user := Fields.key_of_get? rfl
  have hdelay : c.fields.lock "exit_delay" = .ok c.exitDelay.lock := Fields.lock_of_get? rfl
  rw [ofFields, hserver, huser, hdelay]
  show make _ _ _ = _
  rw [make, Delay.ofLock_lock]
  rfl

theorem HashLockedPayment.ofFields_fields (c : HashLockedPayment) : ofFields c.fields = .ok c := by
  have hserver : c.fields.key "server" = .ok c.server := Fields.key_of_get? rfl
  have huser : c.fields.key "user" = .ok c.user := Fields.key_of_get? rfl
  have hlock : HashLock.ofFields c.fields = .ok c.lock := HashLock.ofFields_of_get? rfl rfl
  have hdelay : c.fields.lock "exit_delay" = .ok c.exitDelay.lock := Fields.lock_of_get? rfl
  rw [ofFields, hserver, huser, hlock, hdelay]
  show make _ _ _ _ = _
  rw [make, Delay.ofLock_lock]
  rfl

theorem Vhtlc.ofFields_fields (c : Vhtlc) : ofFields c.fields = .ok c := by
  have hserver : c.fields.key "server" = .ok c.server := Fields.key_of_get? rfl
  have hsender : c.fields.key "sender" = .ok c.sender := Fields.key_of_get? rfl
  have hreceiver : c.fields.key "receiver" = .ok c.receiver := Fields.key_of_get? rfl
  have hlock : HashLock.ofFields c.fields = .ok c.lock := HashLock.ofFields_of_get? rfl rfl
  have htime : c.fields.word "refund_locktime" = .ok c.refundTime := Fields.word_of_get? rfl
  have hclaim : c.fields.lock "unilateral_claim_delay" = .ok c.claimDelay.lock := Fields.lock_of_get? rfl
  have hrefund : c.fields.lock "unilateral_refund_delay" = .ok c.refundDelay.lock := Fields.lock_of_get? rfl
  have halone : c.fields.lock "unilateral_refund_without_receiver_delay" = .ok c.refundAloneDelay.lock :=
    Fields.lock_of_get? rfl
  rw [ofFields, hserver, hsender, hreceiver, hlock, htime, hclaim, hrefund, halone]
  show make _ _ _ _ _ _ _ _ = _
  rw [make, dif_neg c.refundTime_ne_zero, Delay.ofLock_lock, Delay.ofLock_lock, Delay.ofLock_lock]
  rfl

theorem Note.ofFields_fields (note : Note) : ofFields note.fields = .ok note := by
  have htext : note.fields.required "note" = .ok note.render := rfl
  rw [ofFields, htext]
  exact note.parse_render

theorem Explicit.ofFields_fields {c : Explicit} (h : ∀ script ∈ c.scripts, ScriptList.Fits script) :
    ofFields c.fields = .ok c := by
  obtain ⟨server, scripts, hnonempty⟩ := c
  have hbytes : (fields ⟨server, scripts, hnonempty⟩).bytes "tapscripts" = .ok (ScriptList.encode scripts) := by
    cases server <;> exact Fields.bytes_of_get? rfl
  have hserver : (fields ⟨server, scripts, hnonempty⟩).optionalKey "server" = .ok server := by
    cases server with
    | none => rfl
    | some key =>
      have hget : (fields ⟨some key, scripts, hnonempty⟩).get? "server" = some key.hex := rfl
      rw [Fields.optionalKey, hget]
      simp only
      rw [Fields.key_of_get? hget]
      rfl
  rw [ofFields, hbytes]
  simp only [bind, Except.bind]
  rw [ScriptList.decode_encode h]
  simp only
  rw [hserver]
  simp only
  rw [make, dif_neg hnonempty]

theorem AddressOnly.ofFields_fields (c : AddressOnly) : ofFields c.fields = .ok c := by
  have htext : c.fields.required "address" = .ok (c.address.render c.mainnet) := rfl
  have hchain : c.fields.get? "mainnet" = none := rfl
  rw [ofFields, hchain, htext]
  show ofText _ = _
  rw [ofText, Address.parse_render]
  rfl

namespace Contract

/-- Scripts that are given as they are can be read with their lengths. -/
def ScriptsFit : Contract → Prop
  | explicit c => ∀ script ∈ c.scripts, script.length < 3999995
  | _ => True

/-- A contract is read back from its fields. -/
theorem ofFields_fields {c : Contract} (h : c.ScriptsFit) : ofFields c.kind c.fields = .ok c := by
  cases c with
  | payment c => exact congrArg (Except.map payment) c.ofFields_fields
  | hashLockedPayment c => exact congrArg (Except.map hashLockedPayment) c.ofFields_fields
  | vhtlc c => exact congrArg (Except.map vhtlc) c.ofFields_fields
  | note c => exact congrArg (Except.map note) c.ofFields_fields
  | explicit c =>
    have hfits : ∀ script ∈ c.scripts, ScriptList.Fits script := fun script hmem =>
      ScriptList.fits_of_length (h script hmem)
    exact congrArg (Except.map explicit) (Explicit.ofFields_fields hfits)
  | addressOnly c => exact congrArg (Except.map addressOnly) c.ofFields_fields

/-! ## Any order of the fields -/

/-- What is read depends on the lookup of fields only. -/
theorem ofFields_congr {fields other : Fields} (h : ∀ key, other.get? key = fields.get? key)
    (kind : ContractKind) : ofFields kind other = ofFields kind fields := by
  have hrequired : other.required = fields.required := funext fun key => by
    rw [Fields.required, h, Fields.required]
  have hkey : other.key = fields.key := funext fun name => by
    rw [Fields.key, Fields.read, hrequired, Fields.key, Fields.read]
  have hlock : other.lock = fields.lock := funext fun name => by
    simp only [Fields.lock, Fields.word, Fields.unsigned, Fields.read, hrequired]
  have hword : other.word = fields.word := funext fun name => by
    simp only [Fields.word, Fields.unsigned, Fields.read, hrequired]
  have hbytes : other.bytes = fields.bytes := funext fun name => by
    rw [Fields.bytes, hrequired, Fields.bytes]
  have hhash : HashLock.ofFields other = HashLock.ofFields fields := by
    rw [HashLock.ofFields, hbytes, h, HashLock.ofFields]
  cases kind with
  | payment => rw [ofFields, ofFields, Payment.ofFields, Payment.ofFields, hkey, hlock]
  | hashLockedPayment =>
    rw [ofFields, ofFields, HashLockedPayment.ofFields, HashLockedPayment.ofFields, hkey, hhash, hlock]
  | vhtlc => rw [ofFields, ofFields, Vhtlc.ofFields, Vhtlc.ofFields, hkey, hhash, hword, hlock]
  | note => rw [ofFields, ofFields, Note.ofFields, Note.ofFields, hrequired]
  | explicit =>
    rw [ofFields, ofFields, Explicit.ofFields, Explicit.ofFields, hbytes, Fields.optionalKey,
      Fields.optionalKey, h, hkey]
  | addressOnly => rw [ofFields, ofFields, AddressOnly.ofFields, AddressOnly.ofFields, h, hrequired]

/-- The keys that a contract is written with. -/
def keys : Contract → List String
  | payment _ => ["server", "user", "exit_delay"]
  | hashLockedPayment _ => ["server", "user", "hash_type", "hash", "exit_delay"]
  | vhtlc _ => ["server", "sender", "receiver", "hash_type", "hash", "refund_locktime",
      "unilateral_claim_delay", "unilateral_refund_delay", "unilateral_refund_without_receiver_delay"]
  | note _ => ["note"]
  | explicit ⟨none, _, _⟩ => ["tapscripts"]
  | explicit ⟨some _, _, _⟩ => ["server", "tapscripts"]
  | addressOnly _ => ["address"]

theorem map_fst_fields (c : Contract) : c.fields.pairs.map Prod.fst = c.keys := by
  cases c with
  | explicit c =>
    obtain ⟨server, scripts, hnonempty⟩ := c
    cases server <;> rfl
  | _ => rfl

theorem nodup_keys (c : Contract) : c.keys.Nodup ∧ ∀ key ∈ c.keys, key ≠ "" ∧ key ≠ typeKey := by
  cases c with
  | explicit c =>
    obtain ⟨server, scripts, hnonempty⟩ := c
    cases server <;> simp only [keys] <;> decide
  | _ => simp only [keys]; decide

/-- No kind of contract has a key twice, an empty one or that of the type. -/
theorem distinct_fields (c : Contract) : c.fields.Distinct ∧ c.fields.Writable := by
  obtain ⟨hnodup, hkeys⟩ := c.nodup_keys
  rw [← map_fst_fields] at hnodup hkeys
  exact ⟨hnodup, fun pair hmem => hkeys pair.1 (List.mem_map_of_mem hmem)⟩

end Contract

namespace Registry

theorem find?_tag (kind : ContractKind) : builtin.find? kind.tag = some kind := by
  rw [find?, ContractKind.ofTag?_tag]
  cases kind <;> rfl

/-- A contract is read back from its text, with the pairs after the first one in any order. -/
theorem parse_of_reordered {c : Contract} (h : c.ScriptsFit) {text : String}
    (htext : Fields.Reordered c.encode text) : builtin.parse text = .ok c := by
  obtain ⟨hdistinct, hwritable⟩ := c.distinct_fields
  obtain ⟨read, hdecode, hperm⟩ := Fields.decode_of_reordered hwritable htext
  rw [parse, hdecode]
  simp only [bind, Except.bind]
  rw [find?_tag]
  simp only
  rw [Contract.ofFields_congr (Fields.get?_of_perm hdistinct hperm), Contract.ofFields_fields h]

/-- A script with the operator's key, the key last. -/
theorem parse_of_reordered_reverse :
    let c : Contract := .explicit ⟨some unspendableKey, [[Opcode.one]], by decide⟩
    let text := Fields.encode ⟨c.fields.pairs.reverse⟩ c.kind.tag
    c.ScriptsFit ∧ Fields.Reordered c.encode text ∧ builtin.parse text = .ok c := by
  intro c text
  have hfit : c.ScriptsFit := by
    simp [c, Contract.ScriptsFit]
  have htext : Fields.Reordered c.encode text :=
    Fields.reordered_encode (by decide) (List.reverse_perm _).symm
  exact ⟨hfit, htext, parse_of_reordered hfit htext⟩

end Registry

end Vtxo
