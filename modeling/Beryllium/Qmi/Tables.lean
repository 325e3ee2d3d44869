import Beryllium.Qmi.ElemInfo

/-!
# The tables of the services

The tables of `qmi_rmtfs.c` and of `servreg_loc.c`. The offsets and sizes are those of the C
structures on a 64-bit machine, where `size_t` has eight bytes; `bool` has one.
-/

namespace Beryllium.Rmtfs

open Qmi

/-- `rmtfs_qmi_result_ei`. -/
def qmiResultEi : List ElemInfo :=
  [⟨.unsigned2Byte, 1, 2, .noArray, 0, 0, []⟩,
    ⟨.unsigned2Byte, 1, 2, .noArray, 0, 2, []⟩,
    endOfTable]

/-- `rmtfs_iovec_entry_ei`. -/
def iovecEntryEi : List ElemInfo :=
  [⟨.unsigned4Byte, 1, 4, .noArray, 0, 0, []⟩,
    ⟨.unsigned4Byte, 1, 4, .noArray, 0, 4, []⟩,
    ⟨.unsigned4Byte, 1, 4, .noArray, 0, 8, []⟩,
    endOfTable]

/-- `rmtfs_open_req_ei`. -/
def openReqEi : List ElemInfo :=
  [⟨.string, 256, 1, .varLenArray, 1, 4, []⟩,
    endOfTable]

/-- `rmtfs_open_resp_ei`. -/
def openRespEi : List ElemInfo :=
  [⟨.struct, 1, 4, .noArray, 2, 0, qmiResultEi⟩,
    ⟨.optFlag, 1, 1, .noArray, 16, 4, []⟩,
    ⟨.unsigned4Byte, 1, 4, .noArray, 16, 8, []⟩,
    endOfTable]

/-- `rmtfs_close_req_ei`. -/
def closeReqEi : List ElemInfo :=
  [⟨.unsigned4Byte, 1, 4, .noArray, 1, 0, []⟩,
    endOfTable]

/-- `rmtfs_close_resp_ei`. -/
def closeRespEi : List ElemInfo :=
  [⟨.struct, 1, 4, .noArray, 2, 0, qmiResultEi⟩,
    endOfTable]

/-- `rmtfs_iovec_req_ei`. -/
def iovecReqEi : List ElemInfo :=
  [⟨.unsigned4Byte, 1, 4, .noArray, 1, 0, []⟩,
    ⟨.unsigned1Byte, 1, 1, .noArray, 2, 4, []⟩,
    ⟨.dataLen, 1, 1, .noArray, 3, 8, []⟩,
    ⟨.struct, 255, 12, .varLenArray, 3, 16, iovecEntryEi⟩,
    ⟨.unsigned1Byte, 1, 1, .noArray, 4, 3076, []⟩,
    endOfTable]

/-- `rmtfs_iovec_resp_ei`. -/
def iovecRespEi : List ElemInfo :=
  [⟨.struct, 1, 4, .noArray, 2, 0, qmiResultEi⟩,
    endOfTable]

/-- `rmtfs_alloc_buf_req_ei`. -/
def allocBufReqEi : List ElemInfo :=
  [⟨.unsigned4Byte, 1, 4, .noArray, 1, 0, []⟩,
    ⟨.unsigned4Byte, 1, 4, .noArray, 2, 4, []⟩,
    endOfTable]

/-- `rmtfs_alloc_buf_resp_ei`. -/
def allocBufRespEi : List ElemInfo :=
  [⟨.struct, 1, 4, .noArray, 2, 0, qmiResultEi⟩,
    ⟨.optFlag, 1, 1, .noArray, 16, 4, []⟩,
    ⟨.unsigned8Byte, 1, 8, .noArray, 16, 8, []⟩,
    endOfTable]

/-- `rmtfs_dev_error_req_ei`. -/
def devErrorReqEi : List ElemInfo :=
  [⟨.unsigned4Byte, 1, 4, .noArray, 1, 0, []⟩,
    endOfTable]

/-- `rmtfs_dev_error_resp_ei`. -/
def devErrorRespEi : List ElemInfo :=
  [⟨.struct, 1, 4, .noArray, 2, 0, qmiResultEi⟩,
    ⟨.optFlag, 1, 1, .noArray, 16, 4, []⟩,
    ⟨.unsigned1Byte, 1, 1, .noArray, 16, 5, []⟩,
    endOfTable]

end Beryllium.Rmtfs

namespace Beryllium.PdMapper

open Qmi

/-- `servreg_loc_qmi_result_ei`. -/
def qmiResultEi : List ElemInfo :=
  [⟨.unsigned2Byte, 1, 2, .noArray, 0, 0, []⟩,
    ⟨.unsigned2Byte, 1, 2, .noArray, 0, 2, []⟩,
    endOfTable]

/-- `servreg_loc_domain_list_entry_ei`. -/
def domainListEntryEi : List ElemInfo :=
  [⟨.string, 256, 1, .noArray, 0, 4, []⟩,
    ⟨.unsigned4Byte, 1, 4, .noArray, 0, 260, []⟩,
    ⟨.unsigned1Byte, 1, 1, .noArray, 0, 264, []⟩,
    ⟨.unsigned4Byte, 1, 4, .noArray, 0, 268, []⟩,
    endOfTable]

/-- `servreg_loc_get_domain_list_req_ei`. -/
def getDomainListReqEi : List ElemInfo :=
  [⟨.string, 256, 1, .varLenArray, 1, 4, []⟩,
    ⟨.optFlag, 1, 1, .noArray, 16, 260, []⟩,
    ⟨.unsigned4Byte, 1, 4, .noArray, 16, 264, []⟩,
    endOfTable]

/-- `servreg_loc_get_domain_list_resp_ei`. -/
def getDomainListRespEi : List ElemInfo :=
  [⟨.struct, 1, 4, .noArray, 2, 0, qmiResultEi⟩,
    ⟨.optFlag, 1, 1, .noArray, 16, 4, []⟩,
    ⟨.unsigned2Byte, 1, 2, .noArray, 16, 6, []⟩,
    ⟨.optFlag, 1, 1, .noArray, 17, 8, []⟩,
    ⟨.unsigned2Byte, 1, 2, .noArray, 17, 10, []⟩,
    ⟨.optFlag, 1, 1, .noArray, 18, 12, []⟩,
    ⟨.dataLen, 1, 1, .noArray, 18, 16, []⟩,
    ⟨.struct, 255, 272, .varLenArray, 18, 20, domainListEntryEi⟩,
    endOfTable]

end Beryllium.PdMapper
