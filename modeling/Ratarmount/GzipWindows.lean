import Ratarmount.GzipReader

/-!
# Decoded windows

What the window cache keeps: every window is a piece of the decoded content, the total
counts their bytes, and neither limit is exceeded.
-/

namespace Ratarmount.Gzip

open List

variable {decoded : Bytes}

/-- `data` stands in the decoded content at `start`. -/
def Window (decoded : Bytes) (start : ℕ) (data : Bytes) : Prop := data <+: decoded.drop start

theorem window_nil (start : ℕ) : Window decoded start [] := nil_prefix

theorem Window.take {start : ℕ} {data : Bytes} (h : Window decoded start data) (k : ℕ) :
    Window decoded start (data.take k) := ( take_prefix k data).trans h

theorem Window.drop {start : ℕ} {data : Bytes} (h : Window decoded start data) {k : ℕ} (hk : k≤data.length) :
    Window decoded (start+k) (data.drop k) := by
  obtain ⟨rest,hrest⟩:=h
  refine ⟨rest,?_⟩
  rw [←drop_drop,←hrest,drop_append_of_le_length hk]

structure CacheGood (decoded : Bytes) (cache : DecodedWindowCache) : Prop where
  windows : ∀ e ∈ cache.entries, Window decoded e.start e.data
  counted : cache.totalBytes = (cache.entries.map fun e => e.data.length).sum
  chunks : cache.entries.length ≤ g3SeekCacheChunks
  bytes : cache.totalBytes ≤ g3SeekCacheBytes

theorem cacheGood_empty : CacheGood decoded ⟨[],0⟩ :=
  ⟨fun _ he => absurd he not_mem_nil,rfl,Nat.zero_le _,Nat.zero_le _⟩

namespace DecodedWindowCache

variable {entries : List CachedWindow} {start : ℕ} {cache : DecodedWindowCache} {data : Bytes}

theorem evict_good {total : ℕ} (hwindows : ∀e∈entries,Window decoded e.start e.data)
    (htotal : total=(entries.map fun e => e.data.length).sum) : CacheGood decoded (evict entries total) := by
  induction entries generalizing total with
  | nil =>
    subst htotal
    exact cacheGood_empty
  | cons e es ih =>
    rw [evict]
    split_ifs with hover
    · refine ih (fun x hx => hwindows x (mem_cons_of_mem _ hx)) ?_
      rw [htotal,map_cons,sum_cons,Nat.add_sub_cancel_left]
    · obtain ⟨hchunks,hbytes⟩:=not_or.mp hover
      exact ⟨hwindows,htotal,not_lt.mp hchunks,not_lt.mp hbytes⟩

theorem sum_eraseP {old : CachedWindow} (h : (entries.find? fun e => e.start=start)=some old) :
    ((entries.eraseP fun e => e.start=start).map fun e => e.data.length).sum+old.data.length =
      (entries.map fun e => e.data.length).sum := by
  induction entries with
  | nil => cases h
  | cons e es ih =>
    by_cases he : e.start=start
    · rw [find?_cons_of_pos (by simpa using he)] at h
      obtain rfl:=Option.some.inj h
      rw [eraseP_cons_of_pos (by simpa using he),map_cons,sum_cons,add_comm]
    · rw [find?_cons_of_neg (by simpa using he)] at h
      have hrest:=ih h
      rw [eraseP_cons_of_neg (by simpa using he),map_cons,map_cons,sum_cons,sum_cons]
      omega

theorem drop_kept (h : CacheGood decoded cache) (start : ℕ) :
    (∀e∈(cache.drop start).entries,Window decoded e.start e.data) ∧
      (cache.drop start).totalBytes=((cache.drop start).entries.map fun e => e.data.length).sum := by
  rw [drop]
  split
  · rename_i old hold
    refine ⟨fun e he => h.windows e (mem_of_mem_eraseP he),?_⟩
    have hsum:=sum_eraseP hold
    have hcounted:=h.counted
    dsimp only
    omega
  · exact ⟨h.windows,h.counted⟩

theorem insert_good (h : CacheGood decoded cache) (hdata : Window decoded start data) : CacheGood decoded (cache.insert start data) := by
  rw [insert]
  split_ifs
  · exact h
  · obtain ⟨hwindows,hcounted⟩:=drop_kept h start
    refine evict_good ?_ ?_
    · intro e he
      rcases mem_append.mp he with he | he
      · exact hwindows e he
      · rw [mem_singleton.mp he]
        exact hdata
    · rw [map_append,sum_append,←hcounted]
      simp

theorem insertChunks_good {chunks off : ℕ} (h : CacheGood decoded cache) (hdata : Window decoded off data) : CacheGood decoded (insertChunks chunks off data cache) := by
  induction chunks generalizing off data cache with
  | zero => exact h
  | succ chunks ih =>
    rw [insertChunks]
    split_ifs
    · exact h
    · refine ih (insert_good h (hdata.take _)) ?_
      by_cases hlong : g3CacheChunk≤data.length
      · rw [length_take_of_le hlong]
        exact hdata.drop hlong
      · rw [drop_eq_nil_of_le (by omega)]
        exact window_nil _

theorem lookup_some (h : CacheGood decoded cache) {target : ℕ} {w : CachedWindow} (hw : cache.lookup target=some w) :
    Window decoded w.start w.data ∧ w.start≤target ∧ target<w.start+w.data.length := by
  have hmem:=mem_of_find?_eq_some hw
  have hcovers:=find?_some hw
  exact ⟨h.windows w (mem_reverse.mp hmem),by simpa using hcovers⟩

end DecodedWindowCache

end Ratarmount.Gzip
