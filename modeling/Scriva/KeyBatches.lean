import Scriva.KeyWrites

namespace Scriva

open List Option

section

variable {cfg : Config} {guarded : List String} {s s' : Collection} {r : Readings} {now : Int}

theorem live_at {id : Nat} {loc : IndexEntry} (hloc : s.index id = some loc)
    (h : s.live id now = true) : expired loc.expiresAt now = false := by
  simpa [Collection.live, hloc] using h

variable {ch : Change} {txid : String} {ops : List TxOp}

theorem XTxChange.owned {op : XTxOp} {ops : List XTxOp} (h : XTxChange cfg s r op ch)
    (hop : op ∈ ops) (hi : KeyInv cfg guarded s now)
    (htext : op.op ≠ .delete → Textual (s.fields false) op.data)
    (hkeyed : op.op ≠ .delete → Keyed s op.data)
    (hlive : op.op = .update → op.expiresAt ≠ 0 → s.live op.id r.late = true) :
    Owned s guarded r.late (claimsOf s (ops.map (XTxOp.claim r.ts))) ch := by
  intro hne
  have hk : op.op ≠ .delete := h.op ▸ hne
  obtain ⟨hdata, hseal⟩ := h.data hk
  let key := if op.op = .insert then none else s.reservedKey op.id op.data
  have hgiven : ch.data = keepKey key op.data := by
    rw [hdata]
    by_cases hins : op.op = .insert <;> simp [key, hins, Collection.preserveReserved, keepKey]
  have htextk : Textual (s.fields false) ch.data := by
    rw [hgiven]
    exact textual_keepKey (htext hk) _
  have hstored : Clear (keyField :: s.fields false) (keepKey key op.data) ch.entry.data ∧
      KeysAscend (ch.entry.data.getD []) := by
    rw [← hgiven]
    rcases hseal with ⟨hentry, hnone⟩ | hseal
    · rw [hentry, hnone]
      exact ⟨fun _ _ => rfl, List.Pairwise.nil⟩
    · obtain ⟨hclear, hst⟩ := sealed_given hi htextk hseal
      exact ⟨hclear, hst.1⟩
  have hclaim : ∀ f k, f ∈ s.fields false → bucketKey f op.data = some k →
      claimsOf s (ops.map (XTxOp.claim r.ts)) f k ch.entry.id := by
    intro f k hf hkey
    have hmem : op.claim r.ts ∈ ops.map (XTxOp.claim r.ts) := mem_map_of_mem hop
    rw [h.id]
    exact claimsOf_given _ hmem hk hf (by simpa [XTxOp.claim, hk] using hkey)
  refine owned_given hi _ hstored.1 hstored.2 (htext hk) (hkeyed hk) hclaim (fun k hkey hexp => ?_) hne
  -- a key is kept by an update only, whose target is unexpired when the claims are checked
  by_cases hins : op.op = .insert
  · simp [key, hins] at hkey
  · have hkey : s.reservedKey op.id op.data = some k := by simpa [key, hins] using hkey
    obtain ⟨loc, hloc, -, -, hdead⟩ := h.target hins
    have hupd : op.op = .update := by
      cases hop : op.op with
      | insert => exact (hins hop).elim
      | update => rfl
      | delete => exact (hk hop).elim
    rw [h.id]
    refine Or.inr (hi.reservedKey hkey hloc ?_)
    by_cases hzero : op.expiresAt = 0
    · rw [hdead hupd, if_pos hzero] at hexp
      exact hexp
    · exact live_at hloc (hlive hupd hzero)

def Undeleted (batch : List TxOp) (id : Nat) : Prop :=
  ∀ op ∈ batch, op.kind = .delete → op.id ≠ id

def KeptDeadlines (batch : List TxOp) (s t : Collection) : Prop :=
  ∀ id, Undeleted batch id → indexed s id = true →
    (t.index id).map IndexEntry.expiresAt = (s.index id).map IndexEntry.expiresAt

structure BatchGiven (s : Collection) (now : Int) (batch : List TxOp) : Prop where
  text : ∀ op ∈ batch, op.kind ≠ .delete → Textual (s.fields false) op.data
  keyed : ∀ op ∈ batch, op.kind ≠ .delete → Keyed s op.data
  target : ∀ op ∈ batch, op.kind ≠ .insert → indexed s op.id = true
  revived : ∀ op ∈ batch, op.kind = .update → ¬ Undeleted batch op.id → s.live op.id now = true

variable {t t' : Collection} {batch : List TxOp} {exp : Int}

theorem TxChange.owned {op : TxOp} (h : TxChange cfg exp t (s.keepKeyOf op) ch) (hop : op ∈ batch)
    (hi : KeyInv cfg guarded s now) (hg : BatchGiven s r.late batch)
    (hkept : KeptDeadlines batch s t) : Owned s guarded r.late (claimsOf s batch) ch := by
  obtain ⟨hkind, hid⟩ := keepKeyOf_kind s op
  intro hne
  have hk : op.kind ≠ .delete := by
    rw [h.op, hkind] at hne
    exact hne
  let key := if op.kind = .update then s.reservedKey op.id op.data else none
  have hgiven : (s.keepKeyOf op).data = keepKey key op.data := by
    unfold Collection.keepKeyOf
    by_cases hupd : op.kind = .update <;> simp [key, hupd, Collection.preserveReserved, keepKey]
  obtain ⟨-, hseal⟩ := h.data (hkind ▸ hk)
  rw [hgiven] at hseal
  obtain ⟨hclear, hst⟩ := sealed_given hi (textual_keepKey (hg.text op hop hk) _) hseal
  have hclaim : ∀ f k, f ∈ s.fields false → bucketKey f op.data = some k →
      claimsOf s batch f k ch.entry.id := by
    intro f k hf hkey
    rw [h.id, hid]
    exact claimsOf_given op hop hk hf hkey
  refine owned_given hi _ hclear hst.1 (hg.text op hop hk) (hg.keyed op hop hk) hclaim
    (fun k hkey hexp => ?_) hne
  by_cases hupd : op.kind = .update
  · have hkey : s.reservedKey op.id op.data = some k := by simpa [key, hupd] using hkey
    obtain ⟨cur, hcur⟩ := isSome_iff_exists.mp (hg.target op hop (by simp [hupd]))
    rw [h.id, hid]
    refine Or.inr (hi.reservedKey hkey hcur ?_)
    by_cases hun : Undeleted batch op.id
    · have hsame := hkept op.id hun (by rw [indexed, hcur]; rfl)
      rw [hcur] at hsame
      obtain ⟨loc, hloc, hdead⟩ := map_eq_some_iff.mp hsame
      have hnew := h.expiresAt (hkind ▸ hk)
      rw [hkind, if_neg (by simp [hupd]), hid, hloc] at hnew
      rw [hnew] at hexp
      exact hdead ▸ hexp
    · exact live_at hcur (hg.revived op hop hupd hun)
  · simp [key, hupd] at hkey

section Kept

variable (hi : KeyInv cfg guarded s now)
include hi

theorem KeyInv.frame {n : Nat} (hn : s.idSeq ≤ n) (clock : Int) :
    KeyInv cfg guarded { s with idSeq := n, now := clock } now :=
  ⟨hi.sidx.frame hn clock, hi.keyIndex, hi.strings, hi.indexes, hi.distinct⟩

end Kept

end

end Scriva
