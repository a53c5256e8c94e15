import L1.Seq

/-! All that a transaction can do, said once: the ways in which `applyTx` returns. -/
namespace L1.Seq

variable [Wasm] [Blake3] [Ed25519]

/-- The checks that every successful transaction passed. -/
structure Admitted (world : World) (signed : SignedTx) (gas : U64) : Prop where
  verified : verifyEd25519 signed = true
  valid : Ed25519.publicKeyValid signed.publicKey = true
  nonce : (world.account (fromEd25519 signed.publicKey)).nonce = signed.tx.nonce
  metered : gasMeter signed.tx = .ok gas

def installed (world : World) (sender : Address) (paid : Account) (nonce : Nonce) (d : Deploy) :
    World :=
  let addr := WasmCall.createAddress sender nonce
  let world := world.setAccount sender paid
  { world.setAccount addr { world.account addr with codeHash := hashToArray d.code } with
    code := world.code.insert addr d.code }

def transferred (world : World) (sender : Address) (paid : Account) (t : Transfer) : World :=
  let world := world.setAccount sender paid
  world.setAccount t.toAddr (credit (world.account t.toAddr) t.amount)

/-- How a transaction ends. A failed bond is the one failure that may leave a mark. -/
inductive Outcome (world : World) (signed : SignedTx) : World → Receipt → Prop
  | rejected {reason} : Outcome world signed (clearTraces world) (.fail reason)
  | unstaked {s book reason} : signed.tx.payload = .stake s →
      Staking.applyStakeTx world.staking world.params (fromEd25519 signed.publicKey) signed.tx =
        some (book,.error reason) →
      Outcome world signed { clearTraces world with staking := book } (.fail reason)
  | staked {s book gas pay paid} : signed.tx.payload = .stake s → Admitted world signed gas →
      Staking.applyStakeTx world.staking world.params (fromEd25519 signed.publicKey) signed.tx =
        some (book,.ok ()) →
      checkedAdd (stakeDebit s) signed.tx.maxFee = some pay →
      charge (world.account (fromEd25519 signed.publicKey)) pay = some paid →
      Outcome world signed
        { (clearTraces world).setAccount (fromEd25519 signed.publicKey)
            (if s.kind = .withdraw then credit paid s.amount else paid) with staking := book }
        (.ok gas (.stake (fromEd25519 signed.publicKey) s.amount))
  | deployed {d gas paid} : signed.tx.payload = .deploy d → Admitted world signed gas →
      charge (world.account (fromEd25519 signed.publicKey)) signed.tx.maxFee = some paid →
      Outcome world signed
        (installed (clearTraces world) (fromEd25519 signed.publicKey) paid signed.tx.nonce d)
        (.ok gas (.wasm (fromEd25519 signed.publicKey)
          (WasmCall.createAddress (fromEd25519 signed.publicKey) signed.tx.nonce)))
  | called {c gas paid world'} : signed.tx.payload = .call c → Admitted world signed gas →
      charge (world.account (fromEd25519 signed.publicKey)) signed.tx.maxFee = some paid →
      WasmCall.call ((clearTraces world).setAccount (fromEd25519 signed.publicKey) paid) c
        (WasmCall.fuelBudget signed.tx gas) = some (world',.ok ()) →
      Outcome world signed world' (.ok gas (.wasm (fromEd25519 signed.publicKey) c.toAddr))
  | transferred {t gas pay paid} : signed.tx.payload = .transfer t → Admitted world signed gas →
      checkedAdd t.amount signed.tx.maxFee = some pay →
      charge (world.account (fromEd25519 signed.publicKey)) pay = some paid →
      Outcome world signed (transferred (clearTraces world) (fromEd25519 signed.publicKey) paid t)
        (.ok gas (.transfer (fromEd25519 signed.publicKey) t.toAddr t.amount))

variable {world world' : World} {signed : SignedTx} {receipt : Receipt} {gas : U64}

theorem applyStake_outcome {s : StakePayload} (payload : signed.tx.payload = .stake s)
    (admitted : Admitted world signed gas)
    (returned : applyStake (clearTraces world) (fromEd25519 signed.publicKey)
      (world.account (fromEd25519 signed.publicKey)) gas signed.tx s = some (world',receipt)) :
    Outcome world signed world' receipt := by
  unfold applyStake at returned
  split at returned
  · cases returned
    exact .rejected
  split at returned
  · cases returned
  · rename_i failed
    cases returned
    exact .unstaked payload failed
  rename_i staked
  split at returned
  · cases returned
  rename_i sum
  split at returned
  · cases returned
  rename_i charged
  cases returned
  exact .staked payload admitted staked sum charged

theorem applyDeploy_outcome {d : Deploy} (payload : signed.tx.payload = .deploy d)
    (admitted : Admitted world signed gas)
    (returned : applyDeploy (clearTraces world) (fromEd25519 signed.publicKey)
      (world.account (fromEd25519 signed.publicKey)) gas signed.tx d = some (world',receipt)) :
    Outcome world signed world' receipt := by
  unfold applyDeploy WasmCall.install at returned
  split at returned
  · cases returned
    exact .rejected
  split at returned
  · cases returned
    exact .rejected
  split at returned
  · cases returned
  rename_i charged
  cases valid : WasmCall.validateWasm d.code with
  | error e =>
    simp only [valid] at returned
    cases returned
    exact .rejected
  | ok _ =>
    simp only [valid] at returned
    cases returned
    exact .deployed payload admitted charged

theorem applyCall_outcome {c : Call} (payload : signed.tx.payload = .call c)
    (admitted : Admitted world signed gas)
    (returned : applyCall (clearTraces world) (fromEd25519 signed.publicKey)
      (world.account (fromEd25519 signed.publicKey)) gas signed.tx c = some (world',receipt)) :
    Outcome world signed world' receipt := by
  unfold applyCall at returned
  split at returned
  · cases returned
    exact .rejected
  split at returned
  · cases returned
    exact .rejected
  split at returned
  · cases returned
  rename_i charged
  split at returned
  · cases returned
  · cases returned
    exact .rejected
  rename_i ran
  cases returned
  exact .called payload admitted charged ran

theorem applyTransfer_outcome {t : Transfer} (payload : signed.tx.payload = .transfer t)
    (admitted : Admitted world signed gas)
    (returned : applyTransfer (clearTraces world) (fromEd25519 signed.publicKey)
      (world.account (fromEd25519 signed.publicKey)) gas signed.tx t = some (world',receipt)) :
    Outcome world signed world' receipt := by
  unfold applyTransfer at returned
  split at returned
  · cases returned
    exact .rejected
  split at returned
  · cases returned
  rename_i sum
  split at returned
  · cases returned
  rename_i charged
  cases returned
  exact .transferred payload admitted sum charged

theorem applyTx_outcome (returned : applyTx world signed = some (world',receipt)) :
    Outcome world signed world' receipt := by
  unfold applyTx at returned
  dsimp only at returned
  split at returned
  · cases returned
    exact .rejected
  rename_i verified
  unfold senderAddress at returned
  split at returned
  · cases returned
    exact .rejected
  rename_i sender key
  split at key
  case isFalse => cases key
  rename_i valid
  cases key
  split at returned
  · cases returned
    exact .rejected
  rename_i current
  split at returned
  · cases returned
    exact .rejected
  rename_i gas metered
  have nonce : (world.account (fromEd25519 signed.publicKey)).nonce = signed.tx.nonce := by
    unfold nonceCheck at current
    split at current
    · assumption
    · cases current
  have admitted : Admitted world signed gas := ⟨by simpa using verified,valid,nonce,metered⟩
  unfold applyPayload at returned
  split at returned
  · exact applyStake_outcome ‹_› admitted returned
  · exact applyDeploy_outcome ‹_› admitted returned
  · exact applyCall_outcome ‹_› admitted returned
  · exact applyTransfer_outcome ‹_› admitted returned

end L1.Seq
