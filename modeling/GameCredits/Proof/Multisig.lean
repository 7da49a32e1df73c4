import GameCredits.Framework.Matching
import GameCredits.Framework.Outcome
import GameCredits.Model.EvalScript
import GameCredits.Proof.ScriptLimits
import GameCredits.Proof.ScriptNum

/-!
# Several signatures

`OP_CHECKMULTISIG` takes its arguments off the stack (`MultisigArgs`) and leaves whether the
signatures match keys in their order: its loop is the greedy matching of the general theory
(`checkSignatures_eq`).

* `opCheckMultisig_eq`: what it leaves for arguments with the encodings that the flags ask for.
* `multisigArgs_of_ok`: it has such arguments whenever it is not aborted.
* `checkMultisig_exact`: both, for flags that ask for no encoding.
-/

namespace GC

open Framework

variable {checker : Checker} {flags : UInt32} {code : Bytes} {stack : Stack}

/-! ## Reading the stack -/

theorem setErrorIf_eq_ok {c : Bool} {e : ScriptError} {u : Unit} :
    setErrorIf c e = .ok u ↔ c = false := by
  cases c with
  | false => exact iff_of_true rfl rfl
  | true => exact iff_of_false (fun h => by cases h) (fun h => by cases h)

theorem setErrorIf_false (e : ScriptError) : setErrorIf false e = .ok () := rfl

theorem stackTop_one (vch : Bytes) : stackTop (vch :: stack) 1 = .ok vch := rfl

theorem needStack_eq_ok {n : Nat} {u : Unit} : needStack stack n = .ok u ↔ n ≤ stack.length := by
  rw [needStack, setErrorIf_eq_ok, decide_eq_false_iff_not, Nat.not_lt]

theorem stackTop_of_drop {vch : Bytes} {l : Stack} {i : Nat} (h : stack.drop i = vch :: l) :
    stackTop stack (i + 1) = .ok vch := by
  have hi : stack[i]? = some vch := by
    rw [← List.head?_drop, h, List.head?_cons]
  rw [stackTop, hi]

theorem drop_succ_of_drop {vch : Bytes} {l : Stack} {i : Nat} (h : stack.drop i = vch :: l) :
    stack.drop (i + 1) = l := by
  rw [← List.drop_drop, h, List.drop_one, List.tail_cons]

theorem popStackN_eq {k : Nat} (h : k ≤ stack.length) : popStackN k stack = .ok (stack.drop k) := by
  induction k generalizing stack with
  | zero => rfl
  | succ k ih =>
    cases stack with
    | nil => cases h
    | cons vch stack => exact ih (Nat.le_of_succ_le_succ h)

/-- The count on top of the keys or the signatures. -/
theorem getInt_of_scriptNum {f : Bool} {vch : Bytes} {n : Int} (h : scriptNum f vch = .ok n) :
    getInt n = n := by
  obtain ⟨hlen, -, rfl⟩ := scriptNum_eq_ok.mp h
  have := setVch_lt hlen
  unfold getInt
  omega

/-! ## The loops -/

/-- The loop that checks the signatures, which are on the stack with the last one on top, as are the
keys. -/
theorem checkSignatures_eq {sigs keys r r' : Stack} {isig ikey : Nat}
    (hsigs : ∀ sig ∈ sigs, checkSignatureEncoding flags checker sig = .ok ())
    (hkeys : ∀ key ∈ keys, checkPubKeyEncoding flags key = .ok ())
    (hisig : stack.drop isig = sigs ++ r) (hikey : stack.drop ikey = keys ++ r') :
    checkSignatures checker flags stack code keys.length sigs.length (isig + 1) (ikey + 1) =
      .ok (greedyMatch (fun sig key => checker.checkSig sig key code) sigs keys) := by
  induction keys generalizing sigs isig ikey with
  | nil =>
    cases sigs with
    | nil => rfl
    | cons sig sigs => rfl
  | cons key keys ih =>
    cases sigs with
    | nil => rfl
    | cons sig sigs =>
      have hkeys' : ∀ key ∈ keys, checkPubKeyEncoding flags key = .ok () :=
        fun k hk => hkeys k (List.mem_cons_of_mem _ hk)
      have hikey' := drop_succ_of_drop hikey
      rw [List.length_cons, List.length_cons, checkSignatures, stackTop_of_drop hisig,
        stackTop_of_drop hikey, greedyMatch]
      show (checkSignatureEncoding flags checker sig >>= fun _ =>
        checkPubKeyEncoding flags key >>= fun _ => _) = _
      rw [hsigs sig List.mem_cons_self, hkeys key List.mem_cons_self]
      show (if checker.checkSig sig key code = true then _ else
        if keys.length < sigs.length + 1 then _ else _) = _
      rw [List.length_cons]
      split_ifs with haccept hleft
      · exact ih (fun s hs => hsigs s (List.mem_cons_of_mem _ hs)) hkeys'
          (drop_succ_of_drop hisig) hikey'
      · rfl
      · exact ih hsigs hkeys' hisig hikey'

/-- Where the signatures have the encoding that the flags ask for, the loop finds all of them if and only
if they are matched by keys at the beginning that have it too: it goes no further. -/
theorem checkSignatures_true_iff {sigs keys r r' : Stack} {isig ikey : Nat}
    (hsigs : ∀ sig ∈ sigs, checkSignatureEncoding flags checker sig = .ok ())
    (hisig : stack.drop isig = sigs ++ r) (hikey : stack.drop ikey = keys ++ r') :
    checkSignatures checker flags stack code keys.length sigs.length (isig + 1) (ikey + 1) = .ok true ↔
      ∃ tested, tested <+: keys ∧ (∀ key ∈ tested, checkPubKeyEncoding flags key = .ok ()) ∧
        List.SublistForall₂ (fun sig key => checker.checkSig sig key code = true) sigs tested := by
  induction keys generalizing sigs isig ikey with
  | nil =>
    cases sigs with
    | nil => exact iff_of_true rfl ⟨[], List.prefix_refl _, nofun, .nil⟩
    | cons sig sigs =>
      refine iff_of_false (fun h => by cases h) fun ⟨tested, hprefix, _, hmatch⟩ => ?_
      rw [List.prefix_nil.mp hprefix] at hmatch
      cases hmatch
  | cons key keys ih =>
    cases sigs with
    | nil => exact iff_of_true rfl ⟨[], List.nil_prefix, nofun, .nil⟩
    | cons sig sigs =>
      have hikey' := drop_succ_of_drop hikey
      rw [List.length_cons, List.length_cons, checkSignatures, stackTop_of_drop hisig,
        stackTop_of_drop hikey]
      show (checkSignatureEncoding flags checker sig >>= fun _ =>
        checkPubKeyEncoding flags key >>= fun _ => _) = _ ↔ _
      rw [hsigs sig List.mem_cons_self]
      show (checkPubKeyEncoding flags key >>= fun _ => if checker.checkSig sig key code = true then _ else
        if keys.length < sigs.length + 1 then _ else _) = _ ↔ _
      have hfirst : ∀ {tested}, tested <+: key :: keys → List.SublistForall₂
          (fun sig key => checker.checkSig sig key code = true) (sig :: sigs) tested →
          ∃ tested', tested = key :: tested' ∧ tested' <+: keys := fun {tested} hprefix hmatch => by
        cases tested with
        | nil => cases hmatch
        | cons key' tested' =>
          obtain ⟨rfl, hprefix'⟩ := List.cons_prefix_cons.mp hprefix
          exact ⟨tested', rfl, hprefix'⟩
      cases hkey : checkPubKeyEncoding flags key with
      | error e =>
        refine iff_of_false (fun h => by cases h) fun ⟨tested, hprefix, hall, hmatch⟩ => ?_
        obtain ⟨tested', rfl, -⟩ := hfirst hprefix hmatch
        rw [hall key List.mem_cons_self] at hkey
        cases hkey
      | ok _ =>
        have hcons : ∀ {tested' : List Bytes},
            (∀ key' ∈ tested', checkPubKeyEncoding flags key' = .ok ()) →
            ∀ key' ∈ key :: tested', checkPubKeyEncoding flags key' = .ok () :=
          fun hall => List.forall_mem_cons.mpr ⟨hkey, hall⟩
        show (if checker.checkSig sig key code = true then _ else
          if keys.length < sigs.length + 1 then _ else _) = _ ↔ _
        split_ifs with haccept hleft
        · refine (ih (fun s hs => hsigs s (List.mem_cons_of_mem _ hs)) (drop_succ_of_drop hisig)
            hikey').trans ⟨fun ⟨tested, hprefix, hall, hmatch⟩ => ?_,
              fun ⟨tested, hprefix, hall, hmatch⟩ => ?_⟩
          · exact ⟨key :: tested, List.cons_prefix_cons.mpr ⟨rfl, hprefix⟩, hcons hall,
              .cons haccept hmatch⟩
          · obtain ⟨tested', rfl, hprefix'⟩ := hfirst hprefix hmatch
            exact ⟨tested', hprefix', fun k hk => hall k (List.mem_cons_of_mem _ hk),
              sublistForall₂_tail hmatch⟩
        · refine iff_of_false (fun h => by cases h) fun ⟨tested, hprefix, hall, hmatch⟩ => ?_
          obtain ⟨tested', rfl, hprefix'⟩ := hfirst hprefix hmatch
          have hlen := hprefix'.length_le
          cases hmatch with
          | cons h _ => exact haccept h
          | cons_right h =>
            have := sublistForall₂_length h
            rw [List.length_cons] at this
            omega
        · refine (ih hsigs hisig hikey').trans ⟨fun ⟨tested, hprefix, hall, hmatch⟩ => ?_,
            fun ⟨tested, hprefix, hall, hmatch⟩ => ?_⟩
          · exact ⟨key :: tested, List.cons_prefix_cons.mpr ⟨rfl, hprefix⟩, hcons hall,
              .cons_right hmatch⟩
          · obtain ⟨tested', rfl, hprefix'⟩ := hfirst hprefix hmatch
            refine ⟨tested', hprefix', fun k hk => hall k (List.mem_cons_of_mem _ hk), ?_⟩
            cases hmatch with
            | cons h _ => exact absurd h haccept
            | cons_right h => exact h

/-- The script without the signatures. -/
def dropSigs (code : CScript) (sigs : List Bytes) : CScript :=
  sigs.foldl (fun code sig => findAndDelete code (pushData sig)) code

theorem dropSignatures_eq {sigs r : Stack} {isig : Nat} (hisig : stack.drop isig = sigs ++ r) :
    dropSignatures stack sigs.length (isig + 1) code = .ok (dropSigs code sigs) := by
  induction sigs generalizing isig code with
  | nil => rfl
  | cons sig sigs ih =>
    rw [List.length_cons, dropSignatures, stackTop_of_drop hisig]
    exact ih (drop_succ_of_drop hisig)

/-! ## The arguments -/

/-- The arguments of `OP_CHECKMULTISIG`, from the top of the stack: the keys and the signatures, in
the order in which they have been pushed, each list under its length, and one element that is not
used. -/
def multisigStack (vchKeys : Bytes) (keys : List Bytes) (vchSigs : Bytes) (sigs : List Bytes)
    (dummy : Bytes) (rest : Stack) : Stack :=
  vchKeys :: (keys.reverse ++ vchSigs :: (sigs.reverse ++ dummy :: rest))

section

variable {vchKeys vchSigs dummy : Bytes} {keys sigs : List Bytes} {rest : Stack}

theorem length_multisigStack : (multisigStack vchKeys keys vchSigs sigs dummy rest).length =
    keys.length + sigs.length + 3 + rest.length := by
  simp only [multisigStack, List.length_cons, List.length_append, List.length_reverse]
  omega

theorem drop_one_multisigStack : (multisigStack vchKeys keys vchSigs sigs dummy rest).drop 1 =
    keys.reverse ++ vchSigs :: (sigs.reverse ++ dummy :: rest) := rfl

theorem drop_keys_multisigStack :
    (multisigStack vchKeys keys vchSigs sigs dummy rest).drop (1 + keys.length) =
      vchSigs :: (sigs.reverse ++ dummy :: rest) := by
  rw [← List.drop_drop, drop_one_multisigStack]
  exact List.drop_left' List.length_reverse

theorem drop_count_multisigStack :
    (multisigStack vchKeys keys vchSigs sigs dummy rest).drop (1 + keys.length + 1) =
      sigs.reverse ++ dummy :: rest :=
  drop_succ_of_drop drop_keys_multisigStack

theorem drop_sigs_multisigStack :
    (multisigStack vchKeys keys vchSigs sigs dummy rest).drop (1 + keys.length + 1 + sigs.length) =
      dummy :: rest := by
  rw [← List.drop_drop, drop_count_multisigStack]
  exact List.drop_left' List.length_reverse

/-- A stack with the elements that the counts ask for. -/
theorem exists_multisigStack {n m : Nat} (hstack : n + m + 3 ≤ stack.length) :
    ∃ vchKeys keys vchSigs sigs dummy rest, keys.length = n ∧ sigs.length = m ∧
      stack = multisigStack vchKeys keys vchSigs sigs dummy rest := by
  have hcons : ∀ i, i < stack.length → ∃ vch, stack.drop i = vch :: stack.drop (i + 1) := fun i hi =>
    ⟨stack[i], List.drop_eq_getElem_cons hi⟩
  obtain ⟨vchKeys, hvchKeys⟩ := hcons 0 (by omega)
  obtain ⟨vchSigs, hvchSigs⟩ := hcons (1 + n) (by omega)
  obtain ⟨dummy, hdummy⟩ := hcons (1 + n + 1 + m) (by omega)
  refine ⟨vchKeys, ((stack.drop 1).take n).reverse, vchSigs,
    ((stack.drop (1 + n + 1)).take m).reverse, dummy, stack.drop (1 + n + 1 + m + 1), ?_, ?_, ?_⟩
  · rw [List.length_reverse, List.length_take, List.length_drop]
    omega
  · rw [List.length_reverse, List.length_take, List.length_drop]
    omega
  · have hsigs : stack.drop (1 + n + 1 + m) = (stack.drop (1 + n + 1)).drop m := List.drop_drop.symm
    have hkeys : stack.drop (1 + n) = (stack.drop 1).drop n := List.drop_drop.symm
    rw [multisigStack, List.reverse_reverse, List.reverse_reverse, ← hdummy, hsigs,
      List.take_append_drop, ← hvchSigs, hkeys, List.take_append_drop]
    exact hvchKeys

end

/-- The arguments that `OP_CHECKMULTISIG` takes off the stack, and what it leaves. -/
inductive MultisigArgs (flags : UInt32) : Stack → (sigs keys : List Bytes) → (rest : Stack) → Prop
  | mk {vchKeys vchSigs dummy : Bytes} {sigs keys : List Bytes} {rest : Stack}
      (hkeys : scriptNum (hasFlag flags SCRIPT_VERIFY_MINIMALDATA) vchKeys = .ok keys.length)
      (hsigs : scriptNum (hasFlag flags SCRIPT_VERIFY_MINIMALDATA) vchSigs = .ok sigs.length)
      (hle : sigs.length ≤ keys.length) (h20 : keys.length ≤ 20)
      (hdummy : hasFlag flags SCRIPT_VERIFY_NULLDUMMY = true → dummy = []) :
      MultisigArgs flags (multisigStack vchKeys keys vchSigs sigs dummy rest) sigs keys rest

theorem MultisigArgs.length_eq {sigs keys : List Bytes} {rest : Stack}
    (h : MultisigArgs flags stack sigs keys rest) :
    stack.length = keys.length + sigs.length + 3 + rest.length := by
  cases h
  exact length_multisigStack

/-- The arguments as scripts push them. -/
theorem MultisigArgs.pushed {sigs keys : List Bytes} (hle : sigs.length ≤ keys.length)
    (h20 : keys.length ≤ 20) (rest : Stack) : MultisigArgs flags
      (multisigStack (scriptNumBytes keys.length) keys (scriptNumBytes sigs.length) sigs [] rest)
      sigs keys rest :=
  .mk (scriptNum_scriptNumBytes (by omega)) (scriptNum_scriptNumBytes (by omega)) hle h20 fun _ => rfl

/-- Whether the signatures are accepted, in the order in which they are on the stack. -/
def matchSignatures (checker : Checker) (code : CScript) (sigs keys : List Bytes) : Bool :=
  greedyMatch (fun sig key => checker.checkSig sig key (dropSigs code sigs.reverse)) sigs.reverse
    keys.reverse

/-- With its arguments it leaves what its loop makes of them. -/
theorem opCheckMultisig_loop (checker : Checker) (verify : Option ScriptError) {st : EvalState}
    {sigs keys : List Bytes} {rest : Stack} (hargs : MultisigArgs flags st.stack sigs keys rest)
    (hcount : st.nOpCount + keys.length ≤ 201) :
    ∃ r r', st.stack.drop (1 + keys.length + 1) = sigs.reverse ++ r ∧
      st.stack.drop 1 = keys.reverse ++ r' ∧
      opCheckMultisig checker verify flags st =
        checkSignatures checker flags st.stack (dropSigs st.pbegincodehash sigs.reverse) keys.length
          sigs.length (1 + keys.length + 1 + 1) (1 + 1) >>= fun fSuccess =>
        pushVerify verify fSuccess (boolBytes fSuccess) rest >>= fun stack =>
        .ok { st with stack, nOpCount := st.nOpCount + keys.length } := by
  obtain ⟨stack, hstack⟩ : ∃ stack, stack = st.stack := ⟨_, rfl⟩
  rw [← hstack] at hargs
  cases hargs with
  | @mk vchKeys vchSigs dummy _ _ _ hk hs hle h20 hdummy =>
  have hneed : ∀ i, i ≤ keys.length + sigs.length + 3 → needStack st.stack i = .ok () := fun i hi => by
    rw [needStack_eq_ok, ← hstack, length_multisigStack]
    exact hi.trans (Nat.le_add_right _ _)
  have htop₁ : stackTop st.stack 1 = .ok vchKeys := by rw [← hstack]; rfl
  have htop₂ : stackTop st.stack (2 + keys.length) = .ok vchSigs := by
    rw [← hstack, show 2 + keys.length = 1 + keys.length + 1 by omega]
    exact stackTop_of_drop drop_keys_multisigStack
  have hcount₂ : st.stack.drop (1 + keys.length + 1) = sigs.reverse ++ dummy :: rest := by
    rw [← hstack, drop_count_multisigStack]
  have hcount₁ : st.stack.drop 1 = keys.reverse ++ vchSigs :: (sigs.reverse ++ dummy :: rest) := by
    rw [← hstack, drop_one_multisigStack]
  have hdrop : dropSignatures st.stack sigs.length (2 + keys.length + 1) st.pbegincodehash =
      .ok (dropSigs st.pbegincodehash sigs.reverse) := by
    have := @dropSignatures_eq st.pbegincodehash _ _ _ _ hcount₂
    rw [List.length_reverse] at this
    rwa [show 2 + keys.length + 1 = 1 + keys.length + 1 + 1 by omega]
  have hpop : popStackN (2 + keys.length + 1 + sigs.length - 1) st.stack = .ok (dummy :: rest) := by
    rw [popStackN_eq (by rw [← hstack, length_multisigStack]; omega), ← hstack,
      show 2 + keys.length + 1 + sigs.length - 1 = 1 + keys.length + 1 + sigs.length by omega,
      drop_sigs_multisigStack]
  have hnull : (hasFlag flags SCRIPT_VERIFY_NULLDUMMY && !dummy.isEmpty) = false := by
    cases hflag : hasFlag flags SCRIPT_VERIFY_NULLDUMMY with
    | false => rfl
    | true => rw [hdummy hflag]; rfl
  have h₁ : (decide ((keys.length : Int) < 0) || decide (20 < (keys.length : Int))) = false := by
    rw [decide_eq_false (by omega), decide_eq_false (by omega), Bool.or_false]
  have h₂ : decide (201 < st.nOpCount + keys.length) = false := decide_eq_false (by omega)
  have h₃ : (decide ((sigs.length : Int) < 0) || decide ((keys.length : Int) < sigs.length)) =
      false := by
    rw [decide_eq_false (by omega), decide_eq_false (by omega), Bool.or_false]
  have hlast : needStack (dummy :: rest) 1 = .ok () :=
    needStack_eq_ok.mpr (Nat.le_add_left 1 rest.length)
  refine ⟨_, _, hcount₂, hcount₁, ?_⟩
  simp only [opCheckMultisig, hneed 1 (by omega), htop₁, ok_bind, hk, getInt_of_scriptNum hk,
    Int.toNat_natCast, hneed (2 + keys.length) (by omega), htop₂, hs, getInt_of_scriptNum hs,
    hneed (2 + keys.length + 1 + sigs.length) (by omega), hdrop, hpop, h₁, h₂, h₃, hlast,
    setErrorIf_false, stackTop_one, hnull]
  rw [show 2 + keys.length + 1 = 1 + keys.length + 1 + 1 by omega]
  rfl

theorem opCheckMultisig_eq {verify : Option ScriptError} {st : EvalState} {sigs keys : List Bytes}
    {rest : Stack} (hargs : MultisigArgs flags st.stack sigs keys rest)
    (hcount : st.nOpCount + keys.length ≤ 201)
    (hsigs : ∀ sig ∈ sigs, checkSignatureEncoding flags checker sig = .ok ())
    (hkeys : ∀ key ∈ keys, checkPubKeyEncoding flags key = .ok ()) :
    opCheckMultisig checker verify flags st =
      pushVerify verify (matchSignatures checker st.pbegincodehash sigs keys)
        (boolBytes (matchSignatures checker st.pbegincodehash sigs keys)) rest >>= fun stack =>
      .ok { st with stack, nOpCount := st.nOpCount + keys.length } := by
  obtain ⟨r, r', hisig, hikey, hop⟩ := opCheckMultisig_loop checker verify hargs hcount
  have hloop : checkSignatures checker flags st.stack (dropSigs st.pbegincodehash sigs.reverse)
      keys.length sigs.length (1 + keys.length + 1 + 1) (1 + 1) =
        .ok (matchSignatures checker st.pbegincodehash sigs keys) := by
    have := @checkSignatures_eq checker flags (dropSigs st.pbegincodehash sigs.reverse) _ _ _ _ _ _ _
      (by simpa using hsigs) (by simpa using hkeys) hisig hikey
    rwa [List.length_reverse, List.length_reverse] at this
  rw [hop, hloop]
  rfl

/-- Whatever it does not abort on has the arguments. -/
theorem multisigArgs_of_ok {verify : Option ScriptError} {st st' : EvalState}
    (h : opCheckMultisig checker verify flags st = .ok st') : ∃ sigs keys rest,
      MultisigArgs flags st.stack sigs keys rest ∧ st.nOpCount + keys.length ≤ 201 := by
  simp only [opCheckMultisig, bind_eq_ok, setErrorIf_eq_ok, needStack_eq_ok, Bool.or_eq_false_iff,
    decide_eq_false_iff_not] at h
  obtain ⟨-, -, vchKeys, htop₁, nKeys, hk, -, hnKeys, -, hcount, -, -, vchSigs, htop₂, nSigs, hs, -,
    hnSigs, -, hneed, -, -, -, -, stack', hpop, -, -, dummy, htop₃, -, hnull, -⟩ := h
  rw [getInt_of_scriptNum hk] at hnKeys hcount htop₂ hnSigs hneed hpop
  rw [getInt_of_scriptNum hs] at hnSigs hneed hpop
  obtain ⟨vchKeys', keys, vchSigs', sigs, dummy', rest, hkeys, hsigs, hstack⟩ :=
    exists_multisigStack (n := nKeys.toNat) (m := nSigs.toNat) (by omega : _ ≤ st.stack.length)
  rw [hstack] at htop₁ htop₂ hpop ⊢
  rw [← hkeys] at htop₂ hpop hcount
  rw [← hsigs] at hpop
  cases htop₁
  rw [show 2 + keys.length = 1 + keys.length + 1 by omega,
    stackTop_of_drop drop_keys_multisigStack] at htop₂
  cases htop₂
  rw [popStackN_eq (by rw [length_multisigStack]; omega),
    show 2 + keys.length + 1 + sigs.length - 1 = 1 + keys.length + 1 + sigs.length by omega,
    drop_sigs_multisigStack] at hpop
  cases hpop
  cases htop₃
  refine ⟨sigs, keys, rest, .mk ?_ ?_ (by omega) (by omega) fun hflag => ?_, by omega⟩
  · rw [hk, hkeys, Int.toNat_of_nonneg (by omega)]
  · rw [hs, hsigs, Int.toNat_of_nonneg (by omega)]
  · rwa [hflag, Bool.true_and, Bool.not_eq_false', List.isEmpty_iff] at hnull

/-! ## No rule for encodings -/

theorem hasFlag_or (a b : UInt32) : hasFlag flags (a ||| b) = (hasFlag flags a || hasFlag flags b) := by
  rw [hasFlag, hasFlag, hasFlag, Bool.eq_iff_iff, Bool.or_eq_true, bne_iff_ne, bne_iff_ne, bne_iff_ne,
    ← not_and_or, ← UInt32.or_eq_zero_iff]
  refine not_congr (iff_of_eq (congrArg (· = 0) (UInt32.toNat_inj.mp ?_)))
  simp only [UInt32.toNat_and, UInt32.toNat_or, Nat.and_or_distrib_left]

/-- The flags that ask for encodings of signatures and keys. -/
def SCRIPT_VERIFY_ENCODING : UInt32 :=
  SCRIPT_VERIFY_DERSIG ||| SCRIPT_VERIFY_LOW_S ||| SCRIPT_VERIFY_STRICTENC

theorem checkSignatureEncoding_ok (h : hasFlag flags SCRIPT_VERIFY_ENCODING = false) (sig : Bytes) :
    checkSignatureEncoding flags checker sig = .ok () := by
  have hparts := h
  rw [SCRIPT_VERIFY_ENCODING, hasFlag_or, hasFlag_or, Bool.or_eq_false_iff,
    Bool.or_eq_false_iff] at hparts
  obtain ⟨⟨-, hlow⟩, hstrict⟩ := hparts
  rw [SCRIPT_VERIFY_ENCODING] at h
  rw [checkSignatureEncoding, checkLowS, h, hlow, hstrict]
  cases sig.isEmpty with
  | true => rfl
  | false => rfl

theorem checkPubKeyEncoding_ok (h : hasFlag flags SCRIPT_VERIFY_ENCODING = false) (key : Bytes) :
    checkPubKeyEncoding flags key = .ok () := by
  rw [SCRIPT_VERIFY_ENCODING, hasFlag_or, Bool.or_eq_false_iff] at h
  rw [checkPubKeyEncoding, h.2]
  rfl

/-- `OP_CHECKMULTISIG` pushes whether the signatures have an ordered assignment to keys that accept
them, and takes its arguments off the stack. -/
theorem checkMultisig_exact (checker : Checker) {flags : UInt32}
    (hflags : hasFlag flags SCRIPT_VERIFY_ENCODING = false) (st : EvalState) :
    (∀ sigs keys rest, MultisigArgs flags st.stack sigs keys rest → st.nOpCount + keys.length ≤ 201 →
      ∃ fSuccess, execute checker true OP_CHECKMULTISIG [] flags st =
          .ok { st with stack := boolBytes fSuccess :: rest, nOpCount := st.nOpCount + keys.length } ∧
        (fSuccess = true ↔ ∃ f : Fin sigs.length → Fin keys.length, StrictMono f ∧ ∀ i,
          checker.checkSig (sigs.get i) (keys.get (f i)) (dropSigs st.pbegincodehash sigs.reverse) =
            true)) ∧
    ∀ st', execute checker true OP_CHECKMULTISIG [] flags st = .ok st' → ∃ sigs keys rest vch,
      MultisigArgs flags st.stack sigs keys rest ∧ st'.stack = vch :: rest ∧
        st.stack.length = rest.length + (keys.length + sigs.length + 3) := by
  have heq : ∀ {sigs keys rest}, MultisigArgs flags st.stack sigs keys rest →
      st.nOpCount + keys.length ≤ 201 → execute checker true OP_CHECKMULTISIG [] flags st =
        .ok { st with stack := boolBytes (matchSignatures checker st.pbegincodehash sigs keys) :: rest,
                      nOpCount := st.nOpCount + keys.length } := fun hargs hcount =>
    @opCheckMultisig_eq _ _ none _ _ _ _ hargs hcount
      (fun sig _ => checkSignatureEncoding_ok hflags sig) fun key _ => checkPubKeyEncoding_ok hflags key
  refine ⟨fun sigs keys rest hargs hcount => ⟨_, heq hargs hcount, ?_⟩, fun st' h => ?_⟩
  · rw [matchSignatures, greedyMatch_iff, sublistForall₂_reverse_iff, sublistForall₂_iff_strictMono]
  · have hop : opCheckMultisig checker none flags st = .ok st' := h
    obtain ⟨sigs, keys, rest, hargs, hcount⟩ := multisigArgs_of_ok hop
    rw [heq hargs hcount] at h
    cases h
    exact ⟨sigs, keys, rest, _, hargs, rfl, by rw [hargs.length_eq]; omega⟩

/-- Two signatures, each by the key of its value, for keys among which is another one. -/
theorem checkMultisig_exact_two :
    let checker : Checker := { sampleChecker with checkSig := fun sig key _ => sig == key }
    let st : EvalState := ⟨[], [], multisigStack [3] [[5], [6], [7]] [2] [[5], [7]] [] [[9]], [], [], 0⟩
    hasFlag SCRIPT_VERIFY_NULLDUMMY SCRIPT_VERIFY_ENCODING = false ∧
    (∃ fSuccess, execute checker true OP_CHECKMULTISIG [] SCRIPT_VERIFY_NULLDUMMY st =
        .ok { st with stack := boolBytes fSuccess :: [[9]], nOpCount := 3 } ∧
      (fSuccess = true ↔ ∃ f : Fin 2 → Fin 3, StrictMono f ∧ ∀ i,
        checker.checkSig ([[5], [7]].get i) ([[5], [6], [7]].get (f i)) [] = true)) ∧
    execute checker true OP_CHECKMULTISIG [] SCRIPT_VERIFY_NULLDUMMY st =
      .ok { st with stack := vchTrue :: [[9]], nOpCount := 3 } :=
  ⟨by decide, (checkMultisig_exact { sampleChecker with checkSig := fun sig key _ => sig == key }
    (by decide) ⟨[], [], multisigStack [3] [[5], [6], [7]] [2] [[5], [7]] [] [[9]], [], [], 0⟩).1
    [[5], [7]] [[5], [6], [7]] [[9]]
    (@MultisigArgs.pushed _ [[5], [7]] [[5], [6], [7]] (by decide) (by decide) [[9]]) (by decide), rfl⟩

end GC
