import Csc457.Kernel.Proc
import Mathlib.Data.List.FinRange

/-!
# Who may send to whom

system.c: the masks s_ipc_to are filled for one process after the other.  Nobody is ever allowed
to send to himself, and whoever may be sent to may answer, unless he can only receive.
-/

set_option autoImplicit false

namespace Csc457.Kernel

open Function

variable {n k : Nat}

/-- `s_trap_mask & ~(1 << RECEIVE)` -/
def Priv.speaks (p : Priv n k) : Bool :=
  p.trapMask .send || p.trapMask .sendrec || p.trapMask .notify || p.trapMask .sendnb ||
    p.otherTraps

/-- set_sys_bit and unset_sys_bit, in s_ipc_to. -/
def setBit (priv : Fin k → Priv n k) (i j : Fin k) (b : Bool) : Fin k → Priv n k :=
  update priv i { priv i with ipcTo := update (priv i).ipcTo j b }

/-- set_sendto_bit, for a process whose privileges are `own`. -/
def setSendtoBit (own : Fin k) (priv : Fin k → Priv n k) (id : Fin k) : Fin k → Priv n k :=
  if (priv id).procNr = none ∨ own = id then setBit priv own id false
  else
    let priv := setBit priv own id true
    -- whom it can send to must be able to reply
    if (priv id).speaks = true then setBit priv id own true else priv

def unsetSendtoBit (own : Fin k) (priv : Fin k → Priv n k) (id : Fin k) : Fin k → Priv n k :=
  setBit (setBit priv own id false) id own false

def sendtoTurn (own : Fin k) (mask : Nat) (priv : Fin k → Priv n k) (id : Fin k) :
    Fin k → Priv n k :=
  if mask.testBit id = true then setSendtoBit own priv id else unsetSendtoBit own priv id

def fillSendtoMask (priv : Fin k → Priv n k) (own : Fin k) (mask : Nat) : Fin k → Priv n k :=
  (List.finRange k).foldl (sendtoTurn own mask) priv

/-- fill_sendto_mask -/
def State.fillMask {α : Type} (K : State n k α) (rp : Fin n) (mask : Nat) : State n k α :=
  { K with priv := fillSendtoMask K.priv (K.proc rp).priv mask }

def Remasked (priv priv' : Fin k → Priv n k) : Prop :=
  ∀ i, ∃ ipcTo, priv' i = { priv i with ipcTo := ipcTo }

variable {priv priv' priv'' : Fin k → Priv n k} {own : Fin k} {mask : Nat}

theorem Remasked.refl (priv : Fin k → Priv n k) : Remasked priv priv := fun _ => ⟨_, rfl⟩

theorem Remasked.trans (first : Remasked priv priv') (second : Remasked priv' priv'') :
    Remasked priv priv'' := fun i => by
  obtain ⟨ipcTo, here⟩ := first i
  obtain ⟨ipcTo', here'⟩ := second i
  exact ⟨ipcTo', by rw [here', here]⟩

theorem Remasked.field {β : Type} (same : Remasked priv priv') (i : Fin k) (field : Priv n k → β)
    (other : ∀ (p : Priv n k) ipcTo, field { p with ipcTo := ipcTo } = field p) :
    field (priv' i) = field (priv i) := by
  obtain ⟨ipcTo, here⟩ := same i
  rw [here, other]

theorem Remasked.procNr (same : Remasked priv priv') (i : Fin k) :
    (priv' i).procNr = (priv i).procNr := same.field i Priv.procNr fun _ _ => rfl

theorem Remasked.speaks (same : Remasked priv priv') (i : Fin k) :
    (priv' i).speaks = (priv i).speaks := same.field i Priv.speaks fun _ _ => rfl

theorem setBit_remasked {i j : Fin k} {b : Bool} : Remasked priv (setBit priv i j b) := fun x => by
  by_cases isI : x = i
  · subst isI
    exact ⟨_, update_self ..⟩
  · exact ⟨_, update_of_ne isI ..⟩

theorem setBit_ipcTo (priv : Fin k → Priv n k) (i j : Fin k) (b : Bool) (x y : Fin k) :
    (setBit priv i j b x).ipcTo y = if x = i ∧ y = j then b else (priv x).ipcTo y := by
  unfold setBit
  by_cases isI : x = i
  · subst isI
    rw [update_self]
    simp only [update_apply, true_and]
  · rw [update_of_ne isI, if_neg fun both => isI both.1]

theorem sendtoTurn_remasked (own : Fin k) (mask : Nat) (priv : Fin k → Priv n k) (id : Fin k) :
    Remasked priv (sendtoTurn own mask priv id) := by
  unfold sendtoTurn setSendtoBit unsetSendtoBit
  split
  · split
    · exact setBit_remasked
    · dsimp only
      split
      · exact setBit_remasked.trans setBit_remasked
      · exact setBit_remasked
  · exact setBit_remasked.trans setBit_remasked

/-- The process may send to those of the mask who are there, but not to itself. -/
def maySend (priv : Fin k → Priv n k) (own : Fin k) (mask : Nat) (id : Fin k) : Bool :=
  mask.testBit id && (priv id).procNr.isSome && decide (id ≠ own)

/-- Who is in the mask and can speak may answer; who is not in it may no longer. -/
def mayAnswer (priv : Fin k → Priv n k) (own : Fin k) (mask : Nat) (id : Fin k) : Bool :=
  mask.testBit id && ((priv id).procNr.isSome && (priv id).speaks || (priv id).ipcTo own)

theorem sendtoTurn_ipcTo (own : Fin k) (mask : Nat) (priv : Fin k → Priv n k) (id x y : Fin k) :
    (sendtoTurn own mask priv id x).ipcTo y =
      if x = own ∧ y = id then maySend priv own mask id
      else if y = own ∧ x = id then mayAnswer priv own mask id
      else (priv x).ipcTo y := by
  have flip : ∀ b, (setBit (setBit priv own id b) id own b x).ipcTo y =
      if x = own ∧ y = id then b else if y = own ∧ x = id then b else (priv x).ipcTo y := by
    intro b
    rw [setBit_ipcTo, setBit_ipcTo]
    by_cases first : x = own ∧ y = id
    · rw [if_pos first, if_pos first, ite_self]
    · simp only [if_neg first, and_comm]
  unfold sendtoTurn
  by_cases inMask : mask.testBit id = true
  · rw [if_pos inMask]
    unfold setSendtoBit
    split
    · next alone =>
        have never : maySend priv own mask id = false := by
          obtain isNone | rfl := alone
          · simp [maySend, isNone]
          · simp [maySend]
        rw [setBit_ipcTo, never]
        by_cases first : x = own ∧ y = id
        · rw [if_pos first, if_pos first]
        · rw [if_neg first, if_neg first]
          split
          · next second =>
              obtain ⟨rfl, rfl⟩ := second
              obtain isNone | rfl := alone
              · simp [mayAnswer, inMask, isNone]
              · exact absurd ⟨rfl, rfl⟩ first
          · rfl
    · next there =>
        rw [not_or] at there
        have isSome : (priv id).procNr.isSome = true := Option.isSome_iff_ne_none.mpr there.1
        have sends : maySend priv own mask id = true := by
          simp [maySend, inMask, isSome, Ne.symm there.2]
        have same : (setBit priv own id true id).speaks = (priv id).speaks :=
          setBit_remasked.speaks id
        dsimp only
        rw [same, sends]
        split
        · next speaks => rw [flip, mayAnswer, inMask, isSome, speaks]; rfl
        · next mute =>
            rw [setBit_ipcTo]
            by_cases first : x = own ∧ y = id
            · rw [if_pos first, if_pos first]
            · rw [if_neg first, if_neg first]
              split
              · next second =>
                  obtain ⟨rfl, rfl⟩ := second
                  simp [mayAnswer, inMask, mute]
              · rfl
  · rw [if_neg inMask]
    have never : maySend priv own mask id = false := by simp [maySend, inMask]
    have never' : mayAnswer priv own mask id = false := by simp [mayAnswer, inMask]
    rw [never, never']
    exact flip false

theorem maySend_congr (same : Remasked priv priv') (own : Fin k) (mask : Nat) (id : Fin k) :
    maySend priv' own mask id = maySend priv own mask id := by
  rw [maySend, maySend, same.procNr]

theorem sendtoTurns_spec (own : Fin k) (mask : Nat) (ids : List (Fin k)) (distinct : ids.Nodup) :
    Remasked priv (ids.foldl (sendtoTurn own mask) priv) ∧ ∀ x y,
      (ids.foldl (sendtoTurn own mask) priv x).ipcTo y =
        if x = own ∧ y ∈ ids then maySend priv own mask y
        else if y = own ∧ x ∈ ids then mayAnswer priv own mask x
        else (priv x).ipcTo y := by
  induction ids generalizing priv with
  | nil => exact ⟨.refl priv, fun _ _ => by simp⟩
  | cons id rest ih =>
      obtain ⟨other, distinct⟩ := List.nodup_cons.mp distinct
      have turn := sendtoTurn_remasked own mask priv id
      obtain ⟨same, bits⟩ := @ih (sendtoTurn own mask priv id) distinct
      refine ⟨turn.trans same, fun x y => ?_⟩
      rw [List.foldl_cons, bits, maySend_congr turn, sendtoTurn_ipcTo]
      by_cases first : x = own ∧ y ∈ rest
      · rw [if_pos first, if_pos ⟨first.1, List.mem_cons_of_mem _ first.2⟩]
      rw [if_neg first]
      by_cases second : y = own ∧ x ∈ rest
      · have notOwn : x ≠ own := fun isOwn =>
          first ⟨isOwn, by rw [second.1, ← isOwn]; exact second.2⟩
        have notId : x ≠ id := fun isId => other (isId ▸ second.2)
        rw [if_pos second, if_neg fun both => notOwn both.1,
          if_pos ⟨second.1, List.mem_cons_of_mem _ second.2⟩, mayAnswer, mayAnswer, turn.procNr,
          turn.speaks, sendtoTurn_ipcTo, if_neg fun both => notOwn both.1,
          if_neg fun both => notId both.2]
      rw [if_neg second]
      by_cases third : x = own ∧ y = id
      · rw [if_pos third, if_pos ⟨third.1, third.2 ▸ List.mem_cons_self⟩, third.2]
      have notFirst : ¬ (x = own ∧ y ∈ id :: rest) := fun both => (List.mem_cons.mp both.2).elim
        (fun isId => third ⟨both.1, isId⟩) fun isRest => first ⟨both.1, isRest⟩
      rw [if_neg third, if_neg notFirst]
      by_cases fourth : y = own ∧ x = id
      · rw [if_pos fourth, if_pos ⟨fourth.1, fourth.2 ▸ List.mem_cons_self⟩, fourth.2]
      · have notSecond : ¬ (y = own ∧ x ∈ id :: rest) := fun both => (List.mem_cons.mp both.2).elim
          (fun isId => fourth ⟨both.1, isId⟩) fun isRest => second ⟨both.1, isRest⟩
        rw [if_neg fourth, if_neg notSecond]

theorem fillSendtoMask_remasked (priv : Fin k → Priv n k) (own : Fin k) (mask : Nat) :
    Remasked priv (fillSendtoMask priv own mask) :=
  (sendtoTurns_spec own mask _ (List.nodup_finRange k)).1

theorem fillSendtoMask_ipcTo (priv : Fin k → Priv n k) (own : Fin k) (mask : Nat) (x y : Fin k) :
    (fillSendtoMask priv own mask x).ipcTo y =
      if x = own then maySend priv own mask y
      else if y = own then mayAnswer priv own mask x
      else (priv x).ipcTo y := by
  unfold fillSendtoMask
  rw [(sendtoTurns_spec own mask _ (List.nodup_finRange k)).2]
  simp only [List.mem_finRange, and_true]

/-! ## What is always true of the masks -/

structure Masks (priv : Fin k → Priv n k) : Prop where
  /-- Nobody may send to himself. -/
  alone : ∀ i, (priv i).ipcTo i = false
  known : ∀ i j, (priv i).ipcTo j = true → (priv i).procNr ≠ none ∧ (priv j).procNr ≠ none
  /-- Who can speak may answer. -/
  answers : ∀ i j, (priv i).ipcTo j = true → (priv j).speaks = true → (priv j).ipcTo i = true

theorem Masks.congr (procNr : ∀ i, (priv' i).procNr = (priv i).procNr)
    (ipcTo : ∀ i, (priv' i).ipcTo = (priv i).ipcTo)
    (speaks : ∀ i, (priv' i).speaks = (priv i).speaks) (masks : Masks priv) : Masks priv' := by
  refine ⟨fun i => ?_, fun i j => ?_, fun i j => ?_⟩
  · rw [ipcTo]
    exact masks.alone i
  · rw [ipcTo, procNr, procNr]
    exact masks.known i j
  · rw [ipcTo, ipcTo, speaks]
    exact masks.answers i j

theorem Masks.fill (masks : Masks priv) (there : (priv own).procNr ≠ none) (mask : Nat) :
    Masks (fillSendtoMask priv own mask) := by
  have same := fillSendtoMask_remasked priv own mask
  refine ⟨fun i => ?_, fun i j sends => ?_, fun i j sends speaks => ?_⟩
  · rw [fillSendtoMask_ipcTo]
    split
    · next isOwn => simp [maySend, isOwn]
    · exact masks.alone i
  · rw [same.procNr, same.procNr]
    rw [fillSendtoMask_ipcTo] at sends
    split at sends
    · next isOwn =>
        simp only [maySend, Bool.and_eq_true, Option.isSome_iff_ne_none] at sends
        exact ⟨isOwn ▸ there, sends.1.2⟩
    · split at sends
      · next isOwn =>
          simp only [mayAnswer, Bool.and_eq_true, Bool.or_eq_true,
            Option.isSome_iff_ne_none] at sends
          refine ⟨?_, isOwn ▸ there⟩
          obtain ⟨isProc, _⟩ | before := sends.2
          · exact isProc
          · exact (masks.known i own before).1
      · exact masks.known i j sends
  · rw [same.speaks] at speaks
    rw [fillSendtoMask_ipcTo] at sends ⊢
    by_cases isOwn : i = own
    · rw [if_pos isOwn] at sends
      simp only [maySend, Bool.and_eq_true, decide_eq_true_eq] at sends
      obtain ⟨⟨inMask, isProc⟩, notOwn⟩ := sends
      rw [if_neg notOwn, if_pos isOwn, mayAnswer, inMask, isProc, speaks]
      rfl
    rw [if_neg isOwn] at sends
    by_cases isOwn' : j = own
    · rw [if_pos isOwn'] at sends ⊢
      simp only [mayAnswer, Bool.and_eq_true, Bool.or_eq_true] at sends
      have isProc : (priv i).procNr.isSome = true := by
        obtain ⟨isProc, _⟩ | before := sends.2
        · exact isProc
        · exact Option.isSome_iff_ne_none.mpr (masks.known i own before).1
      rw [maySend, sends.1, isProc]
      simp [isOwn]
    · rw [if_neg isOwn'] at sends ⊢
      rw [if_neg isOwn]
      exact masks.answers i j sends speaks

end Csc457.Kernel
